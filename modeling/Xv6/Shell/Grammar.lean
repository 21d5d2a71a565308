import Xv6.Shell.Tokens

namespace Xv6.Shell

/-!
# The grammar of the shell

    line  := pipe '&'* [';' line]
    pipe  := exec ['|' pipe]
    exec  := '(' line ')' redir* | redir* (word redir*)*
    redir := ('<' | '>' | '>>') word

with fewer than `MAXARGS` words in an `exec`.  A derivation carries the command it
stands for: the words of an `exec` are its arguments, and its redirections are put
around it in their order.
-/

def Token.span (token : Token) : Span := (token.start, token.stop)

/-- The token begins a redirection. -/
def Kind.isRedir (kind : Kind) : Prop := kind = .less ∨ kind = .greater ∨ kind = .append

/-- A redirection: its symbol and the word after it. -/
abbrev Redir := Kind × Token

/-- Input comes from the file, or output goes to it. -/
def Redir.around (cmd : Cmd) (redir : Redir) : Cmd :=
  match redir.1 with
  | .less => .redir cmd redir.2.span O_RDONLY 0
  | _ => .redir cmd redir.2.span (O_WRONLY ||| O_CREATE) 1

def wrap (redirs : List Redir) (cmd : Cmd) : Cmd := redirs.foldl Redir.around cmd

inductive Redirs : List Token -> List Redir -> Prop
  | nil : Redirs [] []
  | cons {op file : Token} {ts : List Token} {redirs : List Redir} (symbol : op.kind.isRedir)
    (word : file.kind = .word)
      (rest : Redirs ts redirs) : Redirs (op :: file :: ts) ((op.kind, file) :: redirs)

/-- Words with redirections after each of them. -/
inductive Words : List Token -> List Token -> List Redir -> Prop
  | nil : Words [] [] []
  | cons {word : Token} {first rest words : List Token} {redirs others : List Redir}
    (isWord : word.kind = .word)
      (after : Redirs first redirs) (more : Words rest words others) :
      Words (word :: (first ++ rest)) (word :: words) (redirs ++ others)

def Cmd.backs (cmd : Cmd) : Nat -> Cmd
  | 0 => cmd
  | n + 1 => .back (cmd.backs n)

mutual

inductive Line : List Token -> Cmd -> Prop
  | one {ts amps : List Token} {cmd : Cmd} (first : Pipe ts cmd)
    (all : ∀ token, token ∈ amps -> token.kind = .amp) :
      Line (ts ++ amps) (cmd.backs amps.length)
  | more {ts amps rest : List Token} {semi : Token} {cmd right : Cmd} (first : Pipe ts cmd)
      (all : ∀ token, token ∈ amps -> token.kind = .amp) (isSemi : semi.kind = .semi)
        (others : Line rest right) :
      Line (ts ++ (amps ++ semi :: rest)) (.list (cmd.backs amps.length) right)

inductive Pipe : List Token -> Cmd -> Prop
  | one {ts : List Token} {cmd : Cmd} (only : Exec ts cmd) : Pipe ts cmd
  | more {ts rest : List Token} {bar : Token} {cmd right : Cmd} (first : Exec ts cmd)
    (isBar : bar.kind = .bar)
      (others : Pipe rest right) : Pipe (ts ++ bar :: rest) (.pipe cmd right)

inductive Exec : List Token -> Cmd -> Prop
  | block {opening closing : Token} {ts after : List Token} {cmd : Cmd} {redirs : List Redir}
      (isOpening : opening.kind = .lparen) (inner : Line ts cmd) (isClosing : closing.kind = .rparen)
      (around : Redirs after redirs) : Exec (opening :: (ts ++ closing :: after)) (wrap redirs cmd)
  | simple {first rest words : List Token} {redirs others : List Redir} (before : Redirs first redirs)
      (args : Words rest words others) (few : words.length < MAXARGS) :
      Exec (first ++ rest) (wrap (redirs ++ others) (.exec (words.map Token.span)))

end

section Text

variable {text : List Char} {s s' : Nat} {ts : List Token}

theorem Result.bind_eq_ok {α β : Type} {result : Result α} {next : α -> Nat -> Result β}
    {value : β} :
    result.bind next = .ok value s' <-> ∃ a s, result = .ok a s /\ next a s = .ok value s' := by
  cases result with
  | ok a s =>
    constructor
    · exact fun done => ⟨a, s, rfl, done⟩
    · rintro ⟨a', s'', same, done⟩
      cases same
      exact done
  | panic message => exact ⟨(fun done => nomatch done), (fun ⟨_, _, same, _⟩ => nomatch same)⟩
  | unfinished => exact ⟨(fun done => nomatch done), (fun ⟨_, _, same, _⟩ => nomatch same)⟩

theorem Result.bind_ne_unfinished {α β : Type} {result : Result α} {next : α -> Nat -> Result β}
    (first : result ≠ .unfinished) (second : ∀ a s, result = .ok a s -> next a s ≠ .unfinished) :
    result.bind next ≠ .unfinished := by
  cases result with
  | ok a s => exact second a s rfl
  | panic message => exact fun same => nomatch same
  | unfinished => exact absurd rfl first

/-! ## Redirections -/

variable {token : Token}

theorem starts_redir : starts ['<', '>'] (token :: ts) = true <-> token.kind.isRedir := by
  rw [starts, Kind.isRedir]
  cases token.kind <;> decide

variable {kind : Kind}

theorem redirect_eq (symbol : kind.isRedir) (cmd : Cmd) (file : Token) :
    redirect kind.code cmd file.span = Redir.around cmd (kind, file) := by
  rcases symbol with rfl | rfl | rfl <;> rfl

theorem code_eq_word : kind.code = 'a' <-> kind = .word := by
  cases kind <;> decide

theorem code_ne_nul : kind.code ≠ NUL := by
  cases kind <;> decide

/-- The tokens begin with no redirection, with one, or with a symbol that has no file after it. -/
theorem redirs_cases (ts : List Token) : starts ['<', '>'] ts = false ∨
    (∃ op file rest,
      ts = op :: file :: rest /\ op.kind.isRedir /\ file.kind = .word) ∨
    (∃ op rest,
      ts = op :: rest /\ op.kind.isRedir /\ ∀ file others, rest = file :: others ->
      file.kind ≠ .word) := by
  cases more : starts ['<', '>'] ts with
  | false => exact .inl rfl
  | true =>
    right
    cases ts with
    | nil => cases more
    | cons op rest =>
      have symbol := starts_redir.mp more
      by_cases word : ∃ file others, rest = file :: others /\ file.kind = .word
      · rcases word with ⟨file, others, rfl, word⟩
        exact .inl ⟨op, file, others, rfl, symbol, word⟩
      · exact .inr ⟨op, rest, rfl, symbol,
          fun file others same isWord => word ⟨file, others, same, isWord⟩⟩

section Steps

variable (free : NUL ∉ text) (n : Nat) (cmd : Cmd)

include free

theorem peek_redirs (view : At text s ts) : peek text s ['<', '>'] = starts ['<', '>'] ts :=
  peek_eq free view (by decide)

theorem parseredirs_stop (view : At text s ts) (stops : starts ['<', '>'] ts = false) :
    parseredirs text (n + 1) cmd s = .ok cmd (skip text s) := by
  rw [parseredirs, peek_redirs free view, stops]
  rfl

theorem parseredirs_step {op file : Token} (view : At text s (op :: file :: ts))
    (symbol : op.kind.isRedir) (word : file.kind = .word) : ∃ s', At text s' ts /\ ∀ n cmd,
      parseredirs text (n + 1) cmd s =
        parseredirs text n (Redir.around cmd (op.kind, file)) s' := by
  rcases gettoken_cons free view.skip with ⟨code, _, _, after⟩
  rcases gettoken_cons free after with ⟨code', start, stop, after'⟩
  refine ⟨_, after', fun n cmd => ?_⟩
  rw [parseredirs, peek_redirs free view, starts_redir.mpr symbol, if_pos rfl]
  simp only [code, code', start, stop]
  rw [if_neg (not_not.mpr (code_eq_word.mpr word))]
  exact congrArg (fun cmd => parseredirs text n cmd _) (redirect_eq symbol cmd file)

theorem parseredirs_panic {op : Token} (view : At text s (op :: ts)) (symbol : op.kind.isRedir)
    (missing : ∀ file others, ts = file :: others -> file.kind ≠ .word) :
    parseredirs text (n + 1) cmd s = .panic "missing file for redirection" := by
  rcases gettoken_cons free view.skip with ⟨code, _, _, after⟩
  have other : (gettoken text (gettoken text (skip text s)).s).ret ≠ 'a' := by
    cases ts with
    | nil =>
      rw [(gettoken_nil after).1]
      decide
    | cons file others =>
      rw [(gettoken_cons free after).1]
      exact fun same => missing file others rfl (code_eq_word.mp same)
  rw [parseredirs, peek_redirs free view, starts_redir.mpr symbol, if_pos rfl]
  exact if_pos other

end Steps

/-- What `parseredirs` has read is a sequence of redirections, and no further one follows. -/
theorem parseredirs_sound (free : NUL ∉ text) (n : Nat) :
    ∀ {cmd : Cmd} {s : Nat} {ts : List Token} {done : Cmd},
    At text s ts -> parseredirs text n cmd s = .ok done s' -> ∃ first redirs rest,
      ts = first ++ rest /\ Redirs first redirs /\ done = wrap redirs cmd /\ At text s' rest /\
        starts ['<', '>'] rest = false := by
  induction n with
  | zero =>
    intro cmd s ts done view parsed
    cases parsed
  | succ n ih =>
    intro cmd s ts done view parsed
    rcases redirs_cases ts with stops | ⟨op, file, rest, rfl, symbol, word⟩ | ⟨op, rest, rfl,
      symbol, missing⟩
    · rw [parseredirs_stop free n cmd view stops] at parsed
      cases parsed
      exact ⟨[], [], ts, rfl, .nil, rfl, view.skip, stops⟩
    · rcases parseredirs_step free view symbol word with ⟨next, after, step⟩
      rw [step] at parsed
      rcases ih after parsed with ⟨first, redirs, left, rfl, derived, rfl, view', stops⟩
      exact ⟨op :: file :: first, (op.kind, file) :: redirs, left, rfl, .cons symbol word derived,
        rfl, view', stops⟩
    · rw [parseredirs_panic free n cmd view symbol missing] at parsed
      cases parsed

theorem parseredirs_complete (free : NUL ∉ text) {first rest : List Token} {redirs : List Redir}
    (derived : Redirs first redirs) (stops : starts ['<', '>'] rest = false) :
    ∀ {n s : Nat} (cmd : Cmd), At text s (first ++ rest) -> first.length < n -> ∃ s',
      parseredirs text n cmd s = .ok (wrap redirs cmd) s' /\ At text s' rest := by
  induction derived with
  | nil =>
    intro n s cmd view enough
    obtain ⟨n, rfl⟩ := Nat.exists_eq_add_of_lt enough
    exact ⟨_, parseredirs_stop free _ cmd view stops, view.skip⟩
  | cons symbol word _ ih =>
    intro n s cmd view enough
    rcases parseredirs_step free view symbol word with ⟨next, after, step⟩
    obtain ⟨n, rfl⟩ : ∃ m, n = m + 1 := ⟨n - 1, by omega⟩
    rw [step]
    exact ih _ after (by simp only [List.length_cons] at enough; omega)

theorem parseredirs_total (free : NUL ∉ text) (n : Nat) : ∀ {cmd : Cmd} {s : Nat} {ts : List Token},
    At text s ts -> ts.length < n -> parseredirs text n cmd s ≠ .unfinished := by
  induction n with
  | zero => exact fun _ enough => absurd enough (Nat.not_lt_zero _)
  | succ n ih =>
    intro cmd s ts view enough
    rcases redirs_cases ts with stops | ⟨op, file, rest, rfl, symbol, word⟩ | ⟨op, rest, rfl,
      symbol, missing⟩
    · rw [parseredirs_stop free n cmd view stops]
      exact fun same => nomatch same
    · rcases parseredirs_step free view symbol word with ⟨next, after, step⟩
      rw [step]
      exact ih after (by simp only [List.length_cons] at enough; omega)
    · rw [parseredirs_panic free n cmd view symbol missing]
      exact fun same => nomatch same

/-! ## Arguments -/

/-- The loop over the arguments ends before these tokens. -/
def Ends (ts : List Token) : Prop := ts = [] ∨ starts ['|', ')', '&', ';'] ts = true

theorem args_cases (ts : List Token) : Ends ts ∨
    (∃ word rest, ts = word :: rest /\ word.kind = .word) ∨
    (∃ token rest, ts = token :: rest /\ token.kind ≠ .word /\
      starts ['|', ')', '&', ';'] ts = false) := by
  cases ts with
  | nil => exact .inl (.inl rfl)
  | cons token rest =>
    by_cases word : token.kind = .word
    · exact .inr (.inl ⟨token, rest, rfl, word⟩)
    · cases stops : starts ['|', ')', '&', ';'] (token :: rest) with
      | true => exact .inl (.inr stops)
      | false => exact .inr (.inr ⟨token, rest, rfl, word, rfl⟩)

theorem starts_word (word : token.kind = .word) (toks : List Char) :
    starts toks (token :: ts) = false := by
  rw [starts, word]
  rfl

section Steps

variable (free : NUL ∉ text)

include free

theorem peek_args (view : At text s ts) :
    peek text s ['|', ')', '&', ';'] = starts ['|', ')', '&', ';'] ts :=
  peek_eq free view (by decide)

theorem parseargs_stop (view : At text s ts) (stops : Ends ts) :
    ∃ s', At text s' ts /\ ∀ n argc ret, parseargs text (n + 1) argc ret s = .ok ret s' := by
  cases more : starts ['|', ')', '&', ';'] ts with
  | true =>
    refine ⟨_, view.skip, fun n argc ret => ?_⟩
    rw [parseargs, peek_args free view, more, if_pos rfl]
  | false =>
    obtain rfl : ts = [] := stops.resolve_right (fun yes => by rw [more] at yes; cases yes)
    rcases gettoken_nil view.skip with ⟨null, after⟩
    refine ⟨_, after, fun n argc ret => ?_⟩
    rw [parseargs, peek_args free view, more, if_neg (by decide)]
    exact if_pos null

theorem parseargs_step {word : Token} (view : At text s (word :: ts)) (isWord : word.kind = .word) :
    ∃ s', At text s' ts /\ ∀ n argc ret, parseargs text (n + 1) argc ret s =
      if argc + 1 ≥ MAXARGS then .panic "too many args"
      else (parseredirs text n (ret.addArg word.span) s').bind fun ret s =>
        parseargs text n (argc + 1) ret s := by
  rcases gettoken_cons free view.skip with ⟨code, start, stop, after⟩
  refine ⟨_, after, fun n argc ret => ?_⟩
  rw [parseargs, peek_args free view, starts_word isWord, if_neg (by decide)]
  simp only [code, start, stop]
  rw [if_neg code_ne_nul, if_neg (not_not.mpr (code_eq_word.mpr isWord))]
  rfl

theorem parseargs_panic (view : At text s (token :: ts)) (other : token.kind ≠ .word)
    (more : starts ['|', ')', '&', ';'] (token :: ts) = false) (n argc : Nat) (ret : Cmd) :
    parseargs text (n + 1) argc ret s = .panic "syntax" := by
  rw [parseargs, peek_args free view, more, if_neg (by decide)]
  simp only [(gettoken_cons free view.skip).1]
  rw [if_neg code_ne_nul, if_pos (fun same => other (code_eq_word.mp same))]

end Steps

theorem addArg_wrap (word : Span) (redirs : List Redir) : ∀ cmd : Cmd,
    (wrap redirs cmd).addArg word = wrap redirs (cmd.addArg word) := by
  induction redirs with
  | nil => exact fun cmd => rfl
  | cons redir rest ih =>
    intro cmd
    have inner : (Redir.around cmd redir).addArg word = Redir.around (cmd.addArg word) redir := by
      rw [Redir.around, Redir.around]
      split <;> rfl
    rw [wrap, List.foldl_cons, <- wrap, ih, inner]
    rfl

theorem wrap_append (first second : List Redir) (cmd : Cmd) :
    wrap (first ++ second) cmd = wrap second (wrap first cmd) :=
  List.foldl_append

theorem parseargs_sound (free : NUL ∉ text) (n : Nat) :
    ∀ {argc : Nat} {redirs : List Redir} {args : List Span}
    {s : Nat} {ts : List Token} {done : Cmd}, At text s ts -> argc < MAXARGS ->
    parseargs text n argc (wrap redirs (.exec args)) s = .ok done s' ->
    ∃ first words others rest,
      ts = first ++ rest /\ Words first words others /\ argc + words.length < MAXARGS /\
        done = wrap (redirs ++ others) (.exec (args ++ words.map Token.span)) /\ At text s' rest /\
        Ends rest := by
  induction n with
  | zero =>
    intro argc redirs args s ts done view few parsed
    cases parsed
  | succ n ih =>
    intro argc redirs args s ts done view few parsed
    rcases args_cases ts with stops | ⟨word, rest, rfl, isWord⟩ | ⟨token, rest, rfl, other, more⟩
    · rcases parseargs_stop free view stops with ⟨next, after, step⟩
      rw [step] at parsed
      cases parsed
      exact ⟨[], [], [], ts, rfl, .nil, few, by simp, after, stops⟩
    · rcases parseargs_step free view isWord with ⟨next, after, step⟩
      rw [step] at parsed
      by_cases many : argc + 1 ≥ MAXARGS
      · rw [if_pos many] at parsed
        cases parsed
      · rw [if_neg many, addArg_wrap] at parsed
        rcases Result.bind_eq_ok.mp parsed with ⟨ret, middle, redirected, looped⟩
        rcases parseredirs_sound free n after
          redirected with ⟨first, more, rest, rfl, derived, rfl, view', _⟩
        rw [<- wrap_append] at looped
        rcases ih view' (Nat.lt_of_not_le many) looped with
          ⟨first', words, others, left, rfl, derived', few', rfl, view'', stops⟩
        refine ⟨word :: (first ++ first'), word :: words, more ++ others,
          left, by simp, .cons isWord derived derived', ?_, by simp, view'', stops⟩
        rw [List.length_cons]
        omega
    · rw [parseargs_panic free view other more] at parsed
      cases parsed

/-- After the arguments there is no redirection. -/
theorem Words.starts_redir {first words rest : List Token} {others : List Redir}
    (derived : Words first words others) (stops : Ends rest) :
    starts ['<', '>'] (first ++ rest) = false := by
  cases derived with
  | nil =>
    rcases stops with rfl | symbol
    · rfl
    · cases rest with
      | nil => rfl
      | cons token rest =>
        rw [List.nil_append]
        revert symbol
        rw [starts, starts]
        cases token.kind <;> decide
  | cons isWord _ _ => exact starts_word isWord _

theorem parseargs_complete (free : NUL ∉ text) {first words rest : List Token} {others : List Redir}
    (derived : Words first words others) (stops : Ends rest) :
    ∀ {n s : Nat} (argc : Nat) (redirs : List Redir)
    (args : List Span), At text s (first ++ rest) -> argc + words.length < MAXARGS ->
    first.length < n ->
    ∃ s', parseargs text n argc (wrap redirs (.exec args)) s =
      .ok (wrap (redirs ++ others) (.exec (args ++ words.map Token.span))) s' /\
      At text s' rest := by
  induction derived with
  | nil =>
    intro n s argc redirs args view few enough
    obtain ⟨n, rfl⟩ := Nat.exists_eq_add_of_lt enough
    rcases parseargs_stop free view stops with ⟨next, after, step⟩
    refine ⟨next, ?_, after⟩
    rw [step]
    simp
  | @cons word first rest' words redirs' others isWord after more ih =>
    intro n s argc redirs args view few enough
    simp only [List.length_cons, List.length_append] at few enough
    rw [List.cons_append, List.append_assoc] at view
    rcases parseargs_step free view isWord with ⟨next, view', step⟩
    obtain ⟨n, rfl⟩ : ∃ m, n = m + 1 := ⟨n - 1, by omega⟩
    rcases parseredirs_complete free after (more.starts_redir stops) (n := n)
      (wrap redirs (.exec (args ++ [word.span]))) view' (by omega) with ⟨middle, redirected, view''⟩
    rcases ih (n := n) (argc + 1) (redirs ++ redirs') (args ++ [word.span]) view'' (by omega)
      (by omega) with ⟨last, looped, viewLast⟩
    refine ⟨last, ?_, viewLast⟩
    rw [step, if_neg (by omega), addArg_wrap, Cmd.addArg, redirected, Result.bind, <- wrap_append, looped]
    simp

theorem parseargs_total (free : NUL ∉ text) (n : Nat) :
    ∀ {argc : Nat} {ret : Cmd} {s : Nat} {ts : List Token},
    At text s ts -> ts.length < n -> parseargs text n argc ret s ≠ .unfinished := by
  induction n with
  | zero => exact fun _ enough => absurd enough (Nat.not_lt_zero _)
  | succ n ih =>
    intro argc ret s ts view enough
    rcases args_cases ts with stops | ⟨word, rest, rfl, isWord⟩ | ⟨token, rest, rfl, other, more⟩
    · rcases parseargs_stop free view stops with ⟨next, after, step⟩
      rw [step]
      exact fun same => nomatch same
    · rcases parseargs_step free view isWord with ⟨next, after, step⟩
      rw [List.length_cons] at enough
      rw [step]
      split
      · exact fun same => nomatch same
      · refine Result.bind_ne_unfinished (parseredirs_total free n after (by omega))
          (fun ret' middle redirected => ?_)
        rcases parseredirs_sound free n after redirected with ⟨first, _, left, rfl, _, _, view', _⟩
        rw [List.length_append] at enough
        exact ih view' (by omega)
    · rw [parseargs_panic free view other more]
      exact fun same => nomatch same

end Text

end Xv6.Shell
