import Xv6.Shell.Grammar

namespace Xv6.Shell

open Result (bind_eq_ok bind_ne_unfinished)

/-!
# The parser accepts its grammar

A routine that returns has read a sentence of its nonterminal.  A sentence that is
followed by a token that cannot continue it is read, and nothing more.  With four
units of fuel for each token no routine runs out of it.
-/

variable {text : List Char} {s s' : Nat} {ts : List Token}

/-- A symbol that is a token by itself, and begins no other. -/
def Kind.isSingle : Kind -> Bool
  | .bar | .lparen | .rparen | .semi | .amp => true
  | _ => false

theorem starts_code {c : Char} {kind : Kind} (named : kind.code = c) (single : kind.isSingle = true)
    {token : Token} : starts [c] (token :: ts) = true <-> token.kind = kind := by
  rw [starts, <- named]
  revert single
  cases kind <;> cases token.kind <;> decide

/-- The next token is the symbol, and `gettoken` goes past it; or it is not. -/
theorem peek_symbol (free : NUL ∉ text) (view : At text s ts) (c : Char) (kind : Kind)
    (named : kind.code = c) (single : kind.isSingle = true) :
    (peek text s [c] = true /\ ∃ token rest, ts = token :: rest /\ token.kind = kind /\
      At text (gettoken text (skip text s)).s rest) ∨
        (peek text s [c] = false /\ starts [c] ts = false) := by
  have known : [c].all (fun d => decide (d ∈ symbols)) = true := by
    rw [<- named]
    revert single
    cases kind <;> decide
  rw [peek_eq free view known]
  cases more : starts [c] ts with
  | false => exact .inr ⟨rfl, rfl⟩
  | true =>
    left
    cases ts with
    | nil => cases more
    | cons token rest =>
      exact ⟨rfl, token, rest, rfl, (starts_code named single).mp more,
        (gettoken_cons free view.skip).2.2.2⟩

/-! ## The backgrounds of a line -/

theorem backs_back (cmd : Cmd) (n : Nat) : (Cmd.back cmd).backs n = cmd.backs (n + 1) := by
  induction n with
  | zero => rfl
  | succ n ih => rw [Cmd.backs, ih]; rfl

theorem parsebacks_sound (free : NUL ∉ text) (n : Nat) :
    ∀ {cmd : Cmd} {s : Nat} {ts : List Token} {done : Cmd},
    At text s ts -> parsebacks text n cmd s = .ok done s' -> ∃ amps rest,
      ts = amps ++ rest /\ (∀ token, token ∈ amps -> token.kind = .amp) /\
        done = cmd.backs amps.length /\ At text s' rest := by
  induction n with
  | zero =>
    intro cmd s ts done view parsed
    cases parsed
  | succ n ih =>
    intro cmd s ts done view parsed
    rw [parsebacks] at parsed
    rcases peek_symbol free view '&' .amp rfl rfl with ⟨yes, token, rest, rfl, isAmp, after⟩ | ⟨no, _⟩
    · rw [if_pos yes] at parsed
      rcases ih after parsed with ⟨amps, left, rfl, all, rfl, view'⟩
      refine ⟨token :: amps, left, rfl, fun other listed => ?_, backs_back cmd _, view'⟩
      rcases List.mem_cons.mp listed with rfl | later
      · exact isAmp
      · exact all other later
    · rw [if_neg (Bool.eq_false_iff.mp no)] at parsed
      cases parsed
      exact ⟨[], ts, rfl, fun token listed => absurd listed List.not_mem_nil, rfl, view.skip⟩

theorem parsebacks_complete (free : NUL ∉ text) {amps rest : List Token}
    (stops : starts ['&'] rest = false) :
    (∀ token, token ∈ amps -> token.kind = .amp) ->
    ∀ {n s : Nat} (cmd : Cmd), At text s (amps ++ rest) ->
      amps.length < n ->
      ∃ s', parsebacks text n cmd s = .ok (cmd.backs amps.length) s' /\ At text s' rest := by
  induction amps with
  | nil =>
    intro _ n s cmd view enough
    obtain ⟨n, rfl⟩ := Nat.exists_eq_add_of_lt enough
    refine ⟨_, ?_, view.skip⟩
    rw [parsebacks, peek_eq free view (by decide), List.nil_append, stops]
    rfl
  | cons token amps ih =>
    intro all n s cmd view enough
    rw [List.length_cons] at enough
    obtain ⟨n, rfl⟩ : ∃ m, n = m + 1 := ⟨n - 1, by omega⟩
    have isAmp := all token List.mem_cons_self
    have more : starts ['&'] (token :: (amps ++ rest)) = true := (starts_code rfl rfl).mpr isAmp
    rcases ih (fun other listed => all other (List.mem_cons_of_mem _ listed)) (.back cmd)
      (gettoken_cons free view.skip).2.2.2 (n := n) (by omega) with ⟨last, parsed, view'⟩
    refine ⟨last, ?_, view'⟩
    rw [parsebacks, peek_eq free view (by decide), List.cons_append, more, if_pos rfl, parsed, backs_back]
    rfl

theorem parsebacks_total (free : NUL ∉ text) (n : Nat) : ∀ {cmd : Cmd} {s : Nat} {ts : List Token},
    At text s ts -> ts.length < n -> parsebacks text n cmd s ≠ .unfinished := by
  induction n with
  | zero => exact fun _ enough => absurd enough (Nat.not_lt_zero _)
  | succ n ih =>
    intro cmd s ts view enough
    rw [parsebacks]
    rcases peek_symbol free view '&' .amp rfl rfl with ⟨yes, token, rest, rfl, isAmp, after⟩ | ⟨no, _⟩
    · rw [if_pos yes]
      exact ih after (Nat.lt_of_succ_lt_succ enough)
    · rw [if_neg (Bool.eq_false_iff.mp no)]
      exact fun same => nomatch same

/-! ## What is read is a sentence -/

/-- What a routine has read when it returns. -/
def Reads (text : List Char) (parse : Nat -> Result Cmd)
    (Sentence : List Token -> Cmd -> Prop) : Prop :=
  ∀ s ts done s', At text s ts -> parse s = .ok done s' -> ∃ first rest,
    ts = first ++ rest /\ Sentence first done /\ At text s' rest

theorem parse_sound (free : NUL ∉ text) (n : Nat) : Reads text (parseline text n) Line /\
    Reads text (parsepipe text n) Pipe /\ Reads text (parseblock text n) Exec /\
    Reads text (parseexec text n) Exec := by
  induction n with
  | zero =>
    refine ⟨?_, ?_, ?_, ?_⟩ <;> intro s ts done s' view parsed
    · rw [parseline] at parsed
      cases parsed
    · rw [parsepipe] at parsed
      cases parsed
    · rw [parseblock] at parsed
      cases parsed
    · rw [parseexec] at parsed
      cases parsed
  | succ n ih =>
    rcases ih with ⟨lineReads, pipeReads, blockReads, execReads⟩
    refine ⟨?_, ?_, ?_, ?_⟩ <;> intro s ts done s' view parsed
    · rw [parseline] at parsed
      rcases bind_eq_ok.mp parsed with ⟨cmd, middle, piped, parsed⟩
      rcases pipeReads s ts cmd middle view piped with ⟨first, rest, rfl, derived, view⟩
      rcases bind_eq_ok.mp parsed with ⟨cmd', middle', backed, parsed⟩
      rcases parsebacks_sound free n view backed with ⟨amps, rest, rfl, all, rfl, view⟩
      rcases peek_symbol free view ';' .semi rfl rfl with ⟨yes, semi, rest, rfl, isSemi, after⟩ | ⟨no, _⟩
      · rw [if_pos yes] at parsed
        rcases bind_eq_ok.mp parsed with ⟨right, last, lined, finished⟩
        cases finished
        rcases lineReads _ _ _ _ after lined with ⟨first', left, rfl, derived', view'⟩
        exact ⟨_, left, by simp, .more derived all isSemi derived', view'⟩
      · rw [if_neg (Bool.eq_false_iff.mp no)] at parsed
        cases parsed
        exact ⟨_, rest, by simp, .one derived all, view.skip⟩
    · rw [parsepipe] at parsed
      rcases bind_eq_ok.mp parsed with ⟨cmd, middle, executed, parsed⟩
      rcases execReads s ts cmd middle view executed with ⟨first, rest, rfl, derived, view⟩
      rcases peek_symbol free view '|' .bar rfl rfl with ⟨yes, bar, rest, rfl, isBar, after⟩ | ⟨no, _⟩
      · rw [if_pos yes] at parsed
        rcases bind_eq_ok.mp parsed with ⟨right, last, piped, finished⟩
        cases finished
        rcases pipeReads _ _ _ _ after piped with ⟨first', left, rfl, derived', view'⟩
        exact ⟨_, left, by simp, .more derived isBar derived', view'⟩
      · rw [if_neg (Bool.eq_false_iff.mp no)] at parsed
        cases parsed
        exact ⟨first, rest, rfl, .one derived, view.skip⟩
    · rw [parseblock] at parsed
      rcases peek_symbol free view '(' .lparen rfl
        rfl with ⟨yes, opening, rest, rfl, isOpening, after⟩ | ⟨no, _⟩
      · rw [if_pos yes] at parsed
        rcases bind_eq_ok.mp parsed with ⟨cmd, middle, lined, parsed⟩
        rcases lineReads _ _ _ _ after lined with ⟨first, rest, rfl, derived, view⟩
        rcases peek_symbol free view ')' .rparen rfl
          rfl with ⟨yes, closing, rest, rfl, isClosing, after⟩ | ⟨no, _⟩
        · rw [if_pos yes] at parsed
          rcases parseredirs_sound free n after
            parsed with ⟨last, redirs, left, rfl, derived', rfl, view', _⟩
          exact ⟨_, left, by simp, .block isOpening derived isClosing derived', view'⟩
        · rw [if_neg (Bool.eq_false_iff.mp no)] at parsed
          cases parsed
      · rw [if_neg (Bool.eq_false_iff.mp no)] at parsed
        cases parsed
    · rw [parseexec] at parsed
      rcases peek_symbol free view '(' .lparen rfl rfl with ⟨yes, _⟩ | ⟨no, _⟩
      · rw [if_pos yes] at parsed
        exact blockReads _ ts done s' view.skip parsed
      · rw [if_neg (Bool.eq_false_iff.mp no)] at parsed
        rcases bind_eq_ok.mp parsed with ⟨ret, middle, redirected, looped⟩
        rcases parseredirs_sound free n view.skip
          redirected with ⟨first, redirs, rest, rfl, before, rfl, view, _⟩
        rcases parseargs_sound free n view (by decide) looped with
          ⟨first', words, others, left, rfl, args, few, rfl, view', _⟩
        rw [Nat.zero_add] at few
        exact ⟨_, left, by simp, .simple before args few, view'⟩

/-! ## Every sentence is read -/

/-- There is no further token, or it begins with one of these symbols. -/
def Follow (toks : List Char) (rest : List Token) : Prop := rest = [] ∨ starts toks rest = true

theorem Follow.mono {toks others : List Char} (follow : Follow toks ts)
    (among : toks.all (fun c => decide (c ∈ others)) = true) : Follow others ts := by
  refine follow.imp_right fun symbol => ?_
  cases ts with
  | nil => cases symbol
  | cons token rest =>
    revert symbol
    rw [starts, starts]
    cases token.kind.first with
    | none => exact id
    | some c => exact fun listed =>
      decide_eq_true (of_decide_eq_true (List.all_eq_true.mp among c (of_decide_eq_true listed)))

theorem Follow.avoids {toks others : List Char} (follow : Follow toks ts)
    (apart : toks.all (fun c => decide (c ∉ others)) = true) : starts others ts = false := by
  rcases follow with rfl | symbol
  · rfl
  · cases ts with
    | nil => rfl
    | cons token rest =>
      revert symbol
      rw [starts, starts]
      cases token.kind.first with
      | none => exact fun _ => rfl
      | some c => exact fun listed =>
        decide_eq_false (of_decide_eq_true (List.all_eq_true.mp apart c (of_decide_eq_true listed)))

theorem follow_amps {amps rest : List Token} (all : ∀ token, token ∈ amps -> token.kind = .amp)
    {toks : List Char} (among : '&' ∈ toks) (follow : Follow toks rest) :
    Follow toks (amps ++ rest) := by
  cases amps with
  | nil => exact follow
  | cons token amps =>
    right
    rw [List.cons_append, starts, all token List.mem_cons_self]
    exact decide_eq_true among

theorem follow_cons {token : Token} {kind : Kind} {c : Char} (isKind : token.kind = kind)
    (named : kind.first = some c) {toks : List Char} (among : c ∈ toks) (rest : List Token) :
    Follow toks (token :: rest) := by
  right
  rw [starts, isKind, named]
  exact decide_eq_true among

/-- A simple command does not begin with a parenthesis. -/
theorem simple_starts {first rest words left : List Token} {redirs others : List Redir}
    (before : Redirs first redirs) (args : Words rest words others) (stops : Ends left) :
    starts ['('] (first ++ rest ++ left) = false := by
  cases before with
  | @cons op file ts redirs' symbol _ _ =>
    rw [List.cons_append, List.cons_append, starts]
    revert symbol
    rw [Kind.isRedir]
    cases op.kind <;> decide
  | nil =>
    rw [List.nil_append]
    cases args with
    | nil => exact Follow.avoids stops (by decide)
    | cons isWord _ _ => exact starts_word isWord _

/-- With enough fuel the routine reads each sentence before tokens that can follow it. -/
def Accepts (text : List Char) (parse : Nat -> Result Cmd) (Sentence : List Token -> Cmd -> Prop)
    (toks : List Char) (fuel need : Nat) : Prop :=
  ∀ first rest cmd s, Sentence first cmd -> Follow toks rest -> At text s (first ++ rest) ->
    4 * first.length + need <= fuel -> ∃ s', parse s = .ok cmd s' /\ At text s' rest

/-- An `exec` that begins with a parenthesis. -/
def Block (first : List Token) (cmd : Cmd) : Prop :=
  ∃ opening ts, ∃ closing after redirs,
    ∃ inner, first = opening :: (ts ++ closing :: after) /\ opening.kind = .lparen /\ Line ts inner /\
      closing.kind = .rparen /\ Redirs after redirs /\ cmd = wrap redirs inner

theorem parse_complete (free : NUL ∉ text) (n : Nat) :
    Accepts text (parseline text n) Line [')'] n 4 /\
      Accepts text (parsepipe text n) Pipe [')', '&', ';'] n 3 /\
      Accepts text (parseblock text n) Block ['|', ')', '&', ';'] n 1 /\
      Accepts text (parseexec text n) Exec ['|', ')', '&', ';'] n 2 := by
  induction n with
  | zero => refine ⟨?_, ?_, ?_, ?_⟩ <;> intro first rest cmd s _ _ _ enough <;> omega
  | succ n ih =>
    rcases ih with ⟨lineAccepts, pipeAccepts, blockAccepts, execAccepts⟩
    refine ⟨?_, ?_, ?_, ?_⟩
    · intro sentence rest cmd s derived follow view enough
      cases derived with
      | @one ts amps cmd first all =>
        rw [List.length_append] at enough
        rw [List.append_assoc] at view
        rcases pipeAccepts ts (amps ++ rest) cmd s first
          (follow_amps all (by decide) (follow.mono (by decide))) view
            (by omega) with ⟨middle, piped, view⟩
        rcases parsebacks_complete free (follow.avoids (by decide)) all (n := n) cmd view (by omega) with
          ⟨middle', backed, view⟩
        refine ⟨_, ?_, view.skip⟩
        rw [parseline, piped, Result.bind, backed, Result.bind, peek_eq free view (by decide),
          follow.avoids (by decide)]
        rfl
      | @more ts amps others semi cmd right first all isSemi remaining =>
        simp only [List.length_append, List.length_cons] at enough
        rw [List.append_assoc, List.append_assoc, List.cons_append] at view
        have semiFollows : ∀ toks, ';' ∈ toks -> Follow toks (semi :: (others ++ rest)) :=
          fun toks among =>
          follow_cons isSemi rfl among _
        rcases pipeAccepts ts _ cmd s first (follow_amps all (by decide) (semiFollows _ (by decide))) view
          (by omega) with ⟨middle, piped, view⟩
        rcases parsebacks_complete free ((semiFollows [';'] (by decide)).avoids (by decide)) all
          (n := n) cmd view (by omega) with ⟨middle', backed, view⟩
        have more : starts [';'] (semi :: (others ++ rest)) = true := (starts_code rfl rfl).mpr isSemi
        rcases lineAccepts others rest right _ remaining follow (gettoken_cons free view.skip).2.2.2
          (by omega) with
          ⟨last, lined, view'⟩
        refine ⟨last, ?_, view'⟩
        rw [parseline, piped, Result.bind, backed, Result.bind, peek_eq free view (by decide), more,
          if_pos rfl, lined]
        rfl
    · intro sentence rest cmd s derived follow view enough
      cases derived with
      | one only =>
        rcases execAccepts sentence rest cmd s only (follow.mono (by decide)) view (by omega) with
          ⟨middle, executed, view⟩
        refine ⟨_, ?_, view.skip⟩
        rw [parsepipe, executed, Result.bind, peek_eq free view (by decide), follow.avoids (by decide)]
        rfl
      | @more ts others bar cmd right first isBar remaining =>
        simp only [List.length_append, List.length_cons] at enough
        rw [List.append_assoc, List.cons_append] at view
        rcases execAccepts ts _ cmd s first (follow_cons isBar rfl (by decide) _) view (by omega) with
          ⟨middle, executed, view⟩
        have more : starts ['|'] (bar :: (others ++ rest)) = true := (starts_code rfl rfl).mpr isBar
        rcases pipeAccepts others rest right _ remaining follow (gettoken_cons free view.skip).2.2.2
          (by omega) with
          ⟨last, piped, view'⟩
        refine ⟨last, ?_, view'⟩
        rw [parsepipe, executed, Result.bind, peek_eq free view (by decide), more, if_pos rfl, piped]
        rfl
    · rintro sentence rest cmd s ⟨opening, ts, closing, after, redirs, inner, rfl, isOpening,
        derived, isClosing, around, rfl⟩ follow view enough
      simp only [List.length_append, List.length_cons] at enough
      rw [List.cons_append, List.append_assoc, List.cons_append] at view
      have opens : starts ['('] (opening :: (ts ++ closing :: (after ++ rest))) = true :=
        (starts_code rfl rfl).mpr isOpening
      rcases lineAccepts ts _ inner _ derived (follow_cons isClosing rfl (by decide) _)
        (gettoken_cons free view.skip).2.2.2 (by omega) with ⟨middle, lined, view'⟩
      have closes : starts [')'] (closing :: (after ++ rest)) = true :=
        (starts_code rfl rfl).mpr isClosing
      rcases parseredirs_complete free around (follow.avoids (by decide)) (n := n) inner
        (gettoken_cons free view'.skip).2.2.2 (by omega) with ⟨last, redirected, view''⟩
      refine ⟨last, ?_, view''⟩
      rw [parseblock, peek_eq free view (by decide), opens, if_pos rfl, lined, Result.bind,
        peek_eq free view' (by decide), closes, if_pos rfl, redirected]
    · intro sentence rest cmd s derived follow view enough
      cases derived with
      | @block opening closing ts after inner redirs isOpening lineDerived isClosing around =>
        have opens : starts ['('] (opening :: (ts ++ closing :: after) ++ rest) = true :=
          (starts_code rfl rfl).mpr isOpening
        rw [parseexec, peek_eq free view (by decide), opens, if_pos rfl]
        exact blockAccepts _ rest _ _ ⟨opening, ts, closing, after, redirs, inner, rfl, isOpening,
          lineDerived, isClosing, around, rfl⟩ follow view.skip (by omega)
      | @simple first others words redirs redirs' before args few =>
        have closed := simple_starts before args follow
        rw [List.length_append] at enough
        rw [parseexec, peek_eq free view (by decide), closed, if_neg (by decide)]
        rw [List.append_assoc] at view
        rcases parseredirs_complete free before (args.starts_redir follow) (n := n) (.exec [])
          view.skip (by omega)
          with ⟨middle, redirected, view⟩
        rcases parseargs_complete free args follow (n := n) 0 redirs [] view (by omega) (by omega) with
          ⟨last, looped, view'⟩
        refine ⟨last, ?_, view'⟩
        rw [redirected, Result.bind, looped, List.nil_append]

/-! ## Every call ends -/

/-- With enough fuel the routine does not run out of it. -/
def Finishes (text : List Char) (parse : Nat -> Result Cmd) (fuel need : Nat) : Prop :=
  ∀ s ts, At text s ts -> 4 * ts.length + need <= fuel -> parse s ≠ .unfinished

theorem parse_total (free : NUL ∉ text) (n : Nat) : Finishes text (parseline text n) n 4 /\
    Finishes text (parsepipe text n) n 3 /\ Finishes text (parseblock text n) n 1 /\
      Finishes text (parseexec text n) n 2 := by
  induction n with
  | zero => refine ⟨?_, ?_, ?_, ?_⟩ <;> intro s ts _ enough <;> omega
  | succ n ih =>
    rcases ih with ⟨lineFinishes, pipeFinishes, blockFinishes, execFinishes⟩
    rcases parse_sound free n with ⟨lineReads, pipeReads, blockReads, execReads⟩
    refine ⟨?_, ?_, ?_, ?_⟩ <;> intro s ts view enough
    · rw [parseline]
      refine bind_ne_unfinished (pipeFinishes s ts view (by omega)) (fun cmd middle piped => ?_)
      rcases pipeReads s ts cmd middle view piped with ⟨first, rest, rfl, _, view⟩
      rw [List.length_append] at enough
      refine bind_ne_unfinished (parsebacks_total free n view (by omega)) (fun cmd' middle' backed => ?_)
      rcases parsebacks_sound free n view backed with ⟨amps, rest, rfl, _, _, view⟩
      rw [List.length_append] at enough
      rcases peek_symbol free view ';' .semi rfl rfl with ⟨yes, semi, rest, rfl, _, after⟩ | ⟨no, _⟩
      · rw [List.length_cons] at enough
        rw [if_pos yes]
        refine bind_ne_unfinished (lineFinishes _ rest after (by omega)) (fun right last _ => ?_)
        rintro ⟨⟩
      · rw [if_neg (Bool.eq_false_iff.mp no)]
        rintro ⟨⟩
    · rw [parsepipe]
      refine bind_ne_unfinished (execFinishes s ts view (by omega)) (fun cmd middle executed => ?_)
      rcases execReads s ts cmd middle view executed with ⟨first, rest, rfl, _, view⟩
      rw [List.length_append] at enough
      rcases peek_symbol free view '|' .bar rfl rfl with ⟨yes, bar, rest, rfl, _, after⟩ | ⟨no, _⟩
      · rw [List.length_cons] at enough
        rw [if_pos yes]
        refine bind_ne_unfinished (pipeFinishes _ rest after (by omega)) (fun right last _ => ?_)
        rintro ⟨⟩
      · rw [if_neg (Bool.eq_false_iff.mp no)]
        rintro ⟨⟩
    · rw [parseblock]
      rcases peek_symbol free view '(' .lparen rfl rfl with ⟨yes, opening, rest, rfl, _, after⟩ | ⟨no, _⟩
      · rw [List.length_cons] at enough
        rw [if_pos yes]
        refine bind_ne_unfinished (lineFinishes _ rest after (by omega)) (fun cmd middle lined => ?_)
        rcases lineReads _ rest cmd middle after lined with ⟨first, left, rfl, _, view⟩
        rw [List.length_append] at enough
        rcases peek_symbol free view ')' .rparen rfl
          rfl with ⟨yes, closing, left, rfl, _, after⟩ | ⟨no, _⟩
        · rw [List.length_cons] at enough
          rw [if_pos yes]
          exact parseredirs_total free n after (by omega)
        · rw [if_neg (Bool.eq_false_iff.mp no)]
          rintro ⟨⟩
      · rw [if_neg (Bool.eq_false_iff.mp no)]
        rintro ⟨⟩
    · rw [parseexec]
      rcases peek_symbol free view '(' .lparen rfl rfl with ⟨yes, _⟩ | ⟨no, _⟩
      · rw [if_pos yes]
        exact blockFinishes _ ts view.skip (by omega)
      · rw [if_neg (Bool.eq_false_iff.mp no)]
        refine bind_ne_unfinished (parseredirs_total free n view.skip (by omega))
          (fun ret middle redirected => ?_)
        rcases parseredirs_sound free n view.skip redirected with ⟨first, _, rest, rfl, _, _, view, _⟩
        rw [List.length_append] at enough
        exact parseargs_total free n view (by omega)

/-! ## The words of a command -/

def Cmd.words : Cmd -> List Span
  | .exec args => args
  | .redir cmd file _ _ => file :: cmd.words
  | .pipe left right => left.words ++ right.words
  | .list left right => left.words ++ right.words
  | .back cmd => cmd.words

/-- The span is a word among the tokens. -/
def IsToken (ts : List Token) (word : Span) : Prop :=
  ∃ token, token ∈ ts /\ token.kind = .word /\ token.span = word

theorem IsToken.mono {ts more : List Token} {word : Span} (known : IsToken ts word)
    (among : ∀ token, token ∈ ts -> token ∈ more) : IsToken more word := by
  rcases known with ⟨token, listed, isWord, same⟩
  exact ⟨token, among token listed, isWord, same⟩

theorem words_backs (cmd : Cmd) (n : Nat) : (cmd.backs n).words = cmd.words := by
  induction n with
  | zero => rfl
  | succ n ih => exact ih

theorem words_wrap (redirs : List Redir) :
    ∀ (cmd : Cmd) {word : Span}, word ∈ (wrap redirs cmd).words ->
    word ∈ cmd.words ∨ ∃ redir, redir ∈ redirs /\ redir.2.span = word := by
  induction redirs with
  | nil => exact fun cmd word listed => .inl listed
  | cons redir rest ih =>
    intro cmd word listed
    rcases ih (Redir.around cmd redir) listed with inner | ⟨other, known, same⟩
    · have around : (Redir.around cmd redir).words = redir.2.span :: cmd.words := by
        rw [Redir.around]
        split <;> rfl
      rw [around] at inner
      rcases List.mem_cons.mp inner with rfl | old
      · exact .inr ⟨redir, List.mem_cons_self, rfl⟩
      · exact .inl old
    · exact .inr ⟨other, List.mem_cons_of_mem _ known, same⟩

theorem Redirs.isToken {first : List Token} {redirs : List Redir} (derived : Redirs first redirs)
    {redir : Redir} (listed : redir ∈ redirs) : IsToken first redir.2.span := by
  induction derived with
  | nil => cases listed
  | @cons op file ts redirs symbol word _ ih =>
    rcases List.mem_cons.mp listed with rfl | later
    · exact ⟨file, by simp, word, rfl⟩
    · exact (ih later).mono (fun token known => by simp [known])

theorem Words.isToken {first words : List Token} {others : List Redir}
    (derived : Words first words others) :
    (∀ word, word ∈ words.map Token.span -> IsToken first word) /\
      (∀ redir, redir ∈ others -> IsToken first redir.2.span) := by
  induction derived with
  | nil => exact ⟨fun _ listed => absurd listed List.not_mem_nil,
    fun _ listed => absurd listed List.not_mem_nil⟩
  | @cons word first rest words redirs others isWord after more ih =>
    refine ⟨fun span listed => ?_, fun redir listed => ?_⟩
    · rcases List.mem_cons.mp listed with rfl | later
      · exact ⟨word, List.mem_cons_self, isWord, rfl⟩
      · exact (ih.1 span later).mono (fun token known => by simp [known])
    · rcases List.mem_append.mp listed with early | late
      · exact (after.isToken early).mono (fun token known => by simp [known])
      · exact (ih.2 redir late).mono (fun token known => by simp [known])

mutual

theorem Line.isToken {ts : List Token} {cmd : Cmd} {word : Span} :
    Line ts cmd -> word ∈ cmd.words -> IsToken ts word
  | .one first all, listed => by
      rw [words_backs] at listed
      exact (first.isToken listed).mono (fun token known => List.mem_append_left _ known)
  | .more first all isSemi others, listed => by
      rcases List.mem_append.mp listed with left | right
      · rw [words_backs] at left
        exact (first.isToken left).mono (fun token known => List.mem_append_left _ known)
      · exact (others.isToken right).mono (fun token known => by simp [known])

theorem Pipe.isToken {ts : List Token} {cmd : Cmd} {word : Span} :
    Pipe ts cmd -> word ∈ cmd.words -> IsToken ts word
  | .one only, listed => only.isToken listed
  | .more first isBar others, listed => by
      rcases List.mem_append.mp listed with left | right
      · exact (first.isToken left).mono (fun token known => List.mem_append_left _ known)
      · exact (others.isToken right).mono (fun token known => by simp [known])

theorem Exec.isToken {ts : List Token} {cmd : Cmd} {word : Span} :
    Exec ts cmd -> word ∈ cmd.words -> IsToken ts word
  | .block isOpening inner isClosing around, listed => by
      rcases words_wrap _ _ listed with inside | ⟨redir, known, rfl⟩
      · exact (inner.isToken inside).mono (fun token known => by simp [known])
      · exact (around.isToken known).mono (fun token known => by simp [known])
  | .simple before args few, listed => by
      rcases words_wrap _ _ listed with inside | ⟨redir, known, rfl⟩
      · exact (args.isToken.1 word inside).mono (fun token known => List.mem_append_right _ known)
      · rcases List.mem_append.mp known with early | late
        · exact (before.isToken early).mono (fun token known => List.mem_append_left _ known)
        · exact (args.isToken.2 redir late).mono (fun token known => List.mem_append_right _ known)

end

/-! ## parsecmd -/

/-- `parsecmd` returns the command and leaves the text so. -/
def Returns (text : List Char) (cmd : Cmd) (after : List Char) : Prop :=
  ∃ n, ∀ fuel, n <= fuel -> parsecmd text fuel = .ok (cmd, after) text.length

/-- From its start on, the word is a string of the text, and in the text as it was left a NUL ends
it. -/
structure Delimits (text after : List Char) (word : Span) : Prop where
  maximal : IsMaximal text word
  kept : ∀ i, word.1 <= i -> i < word.2 -> charAt after i = charAt text i /\ charAt after i ≠ NUL
  ended : charAt after word.2 = NUL

theorem at_start (text : List Char) : At text 0 (tokens 0 text) := ⟨Nat.zero_le _, rfl⟩

theorem charAt_set (text : List Char) (i j : Nat) :
    charAt (text.set j NUL) i = if i = j then NUL else charAt text i := by
  rw [charAt, charAt, List.getD_eq_getElem?_getD, List.getD_eq_getElem?_getD, List.getElem?_set]
  by_cases same : j = i
  · rw [if_pos same, if_pos same.symm]
    split <;> rfl
  · rw [if_neg same, if_neg (Ne.symm same)]

theorem charAt_foldl_set (args : List Span) (i : Nat) : ∀ text : List Char,
    charAt (args.foldl (fun text word => text.set word.2 NUL) text) i =
      if i ∈ args.map Prod.snd then NUL else charAt text i := by
  induction args with
  | nil => exact fun text => rfl
  | cons word rest ih =>
    intro text
    rw [List.foldl_cons, ih, charAt_set, List.map_cons]
    by_cases later : i ∈ rest.map Prod.snd
    · rw [if_pos later, if_pos (List.mem_cons_of_mem _ later)]
    · by_cases same : i = word.2
      · rw [if_neg later, if_pos same, if_pos (List.mem_cons.mpr (.inl same))]
      · rw [if_neg later, if_neg same, if_neg (List.not_mem_cons_of_ne_of_not_mem same later)]

/-- Only the ends of the words are changed. -/
theorem charAt_nulterminate (cmd : Cmd) (i : Nat) : ∀ text : List Char,
    charAt (nulterminate cmd text) i =
      if i ∈ cmd.words.map Prod.snd then NUL else charAt text i := by
  have both : ∀ (first second : List Span) (c : Char),
      (if i ∈ second.map Prod.snd then NUL else if i ∈ first.map Prod.snd then NUL else c) =
        if i ∈ (first ++ second).map Prod.snd then NUL else c := by
    intro first second c
    rw [List.map_append]
    by_cases late : i ∈ second.map Prod.snd
    · rw [if_pos late, if_pos (List.mem_append_right _ late)]
    · by_cases early : i ∈ first.map Prod.snd
      · rw [if_neg late, if_pos early, if_pos (List.mem_append_left _ early)]
      · rw [if_neg late, if_neg early, if_neg (fun listed => (List.mem_append.mp listed).elim early late)]
  induction cmd with
  | exec args => exact charAt_foldl_set args i
  | redir cmd file mode fd ih =>
    intro text
    rw [nulterminate, charAt_set, ih, Cmd.words, List.map_cons]
    by_cases same : i = file.2
    · rw [if_pos same, if_pos (List.mem_cons.mpr (.inl same))]
    · by_cases inner : i ∈ cmd.words.map Prod.snd
      · rw [if_neg same, if_pos inner, if_pos (List.mem_cons_of_mem _ inner)]
      · rw [if_neg same, if_neg inner, if_neg (List.not_mem_cons_of_ne_of_not_mem same inner)]
  | pipe left right leftHypothesis rightHypothesis =>
    intro text
    rw [nulterminate, rightHypothesis, leftHypothesis, Cmd.words, both]
  | list left right leftHypothesis rightHypothesis =>
    intro text
    rw [nulterminate, rightHypothesis, leftHypothesis, Cmd.words, both]
  | back cmd ih => exact ih

/-- The words of a sentence are delimited in the text that `nulterminate` leaves. -/
theorem delimits_of_line (free : NUL ∉ text) {cmd : Cmd} (derived : Line (tokens 0 text) cmd)
    {word : Span} (listed : word ∈ cmd.words) : Delimits text (nulterminate cmd text) word := by
  have maximal : ∀ other, other ∈ cmd.words -> IsMaximal text other := by
    intro other known
    rcases derived.isToken known with ⟨token, member, isWord, rfl⟩
    exact maximal_of_tokens 0 text rfl (Nat.zero_le _) (.inl rfl) token member isWord
  refine ⟨maximal word listed, fun i low high => ?_, ?_⟩
  · have character := (maximal word listed).characters i low high
    have before := Nat.lt_of_lt_of_le high (maximal word listed).inside
    have notEnd : i ∉ cmd.words.map Prod.snd := by
      intro ended
      rcases List.mem_map.mp ended with ⟨other, known, rfl⟩
      rcases (maximal other known).right with last | stops
      · exact absurd before (Nat.not_lt_of_le (Nat.le_of_eq last.symm))
      · rw [stops] at character
        cases character
    have same : charAt (nulterminate cmd text) i = charAt text i := by
      rw [charAt_nulterminate, if_neg notEnd]
    refine ⟨same, ?_⟩
    rw [same, charAt, List.getD_eq_getElem?_getD, List.getElem?_eq_getElem before, Option.getD_some]
    exact fun null => free (null ▸ List.getElem_mem before)
  · rw [charAt_nulterminate, if_pos (List.mem_map_of_mem listed)]

theorem parsecmd_of_line (free : NUL ∉ text) {cmd : Cmd} (derived : Line (tokens 0 text) cmd) :
    Returns text cmd (nulterminate cmd text) := by
  refine ⟨4 * (tokens 0 text).length + 4, fun fuel enough => ?_⟩
  have start : At text 0 (tokens 0 text ++ []) := by
    rw [List.append_nil]
    exact at_start text
  rcases (parse_complete free fuel).1 _ [] cmd 0 derived (.inl rfl) start enough with ⟨s', parsed, view⟩
  have finished := (skip_eq_length_iff view).mpr rfl
  rw [parsecmd, parsed, Result.bind, if_neg (not_not.mpr finished), finished]

theorem line_of_parsecmd (free : NUL ∉ text) {fuel : Nat} {cmd : Cmd} {after : List Char}
    (parsed : parsecmd text fuel = .ok (cmd, after) s') :
    Line (tokens 0 text) cmd /\ after = nulterminate cmd text := by
  rcases bind_eq_ok.mp parsed with ⟨cmd', s, lined, finished⟩
  rcases (parse_sound free fuel).1 0 _ cmd' s (at_start text)
    lined with ⟨first, rest, split, derived, view⟩
  by_cases leftover : skip text s ≠ text.length
  · rw [if_pos leftover] at finished
    cases finished
  · rw [if_neg leftover] at finished
    cases finished
    rw [(skip_eq_length_iff view).mp (not_not.mp leftover), List.append_nil] at split
    rw [split]
    exact ⟨derived, rfl⟩

/-- `parsecmd` ends; it returns a command exactly when the tokens are a sentence, and then the one
command of the sentence, whose words are delimited. -/
theorem parsecmd_exact (free : NUL ∉ text) :
    (∃ n, ∀ fuel, n <= fuel -> parsecmd text fuel ≠ .unfinished) /\
      (∀ cmd, (∃ after, Returns text cmd after) <-> Line (tokens 0 text) cmd) /\
      (∀ cmd other, Line (tokens 0 text) cmd -> Line (tokens 0 text) other -> cmd = other) /\
      (∀ cmd after, Returns text cmd after -> ∀ word, word ∈ cmd.words ->
        Delimits text after word) := by
  have sentence : ∀ cmd after, Returns text cmd after ->
      Line (tokens 0 text) cmd /\ after = nulterminate cmd text := by
    rintro cmd after ⟨n, returns⟩
    exact line_of_parsecmd free (returns n (Nat.le_refl n))
  refine ⟨⟨4 * (tokens 0 text).length + 4, fun fuel enough => ?_⟩, fun cmd => ⟨?_, ?_⟩,
    fun cmd other first second => ?_, fun cmd after returns word listed => ?_⟩
  · refine bind_ne_unfinished ((parse_total free fuel).1 0 _ (at_start text) enough) (fun cmd s _ => ?_)
    split <;> exact fun same => nomatch same
  · rintro ⟨after, returns⟩
    exact (sentence cmd after returns).1
  · exact fun derived => ⟨_, parsecmd_of_line free derived⟩
  · rcases parsecmd_of_line free first with ⟨n, returns⟩
    rcases parsecmd_of_line free second with ⟨n', returns'⟩
    have same := (returns (n + n') (Nat.le_add_right _ _)).symm.trans
        (returns' (n + n') (Nat.le_add_left _ _))
    injection same with pair
    exact (Prod.mk.inj pair).1
  · rcases sentence cmd after returns with ⟨derived, rfl⟩
    exact delimits_of_line free derived listed

/-- A pipe into a block in the background. -/
def piped : List Char := ['l', 's', ' ', '<', 'a', '|', '(', 'w', 'c', '>', '>', 'b', ')', ' ', '&']

/-- The command of that line. -/
def pipedCmd : Cmd :=
  .back (.pipe (.redir (.exec [(0, 2)]) (4, 5) O_RDONLY 0)
    (.redir (.exec [(7, 9)]) (11, 12) (O_WRONLY ||| O_CREATE) 1))

theorem parsecmd_piped : parsecmd piped 80 = .ok (pipedCmd,
    ['l', 's', NUL, '<', 'a', NUL, '(', 'w', 'c', NUL, '>', 'b', NUL, ' ', '&']) 15 := by
  decide +kernel

theorem parsecmd_exact_piped : ∃ after,
    Returns piped (.back (.pipe (.redir (.exec [(0, 2)]) (4, 5) O_RDONLY 0)
      (.redir (.exec [(7, 9)]) (11, 12) (O_WRONLY ||| O_CREATE) 1))) after /\
      Delimits piped after (7, 9) /\ Delimits piped after (11, 12) := by
  have free : NUL ∉ piped := by decide
  rcases parsecmd_exact free with ⟨_, accepted, _, delimited⟩
  rcases (accepted _).mpr (line_of_parsecmd free parsecmd_piped).1 with ⟨after, returns⟩
  exact ⟨after, returns, delimited _ after returns _ (by decide), delimited _ after returns _ (by decide)⟩

/-! ## The words as strings -/

/-- The string at a position. -/
def stringAt (text : List Char) (s : Nat) : List Char := (text.drop s).takeWhile fun c => c ≠ NUL

/-- A position at which characters other than NUL start, with a NUL after them. -/
theorem stringAt_eq {text after : List Char} (k : Nat) : ∀ s : Nat, s + k <= text.length ->
    (∀ i, s <= i -> i < s + k -> charAt after i = charAt text i /\ charAt after i ≠ NUL) ->
    charAt after (s + k) = NUL -> stringAt after s = (text.drop s).take k := by
  induction k with
  | zero =>
    intro s _ _ ended
    rw [Nat.add_zero, charAt_eq] at ended
    rw [stringAt, List.take_zero]
    cases here : after.drop s with
    | nil => rfl
    | cons c rest =>
      rw [here] at ended
      rw [List.takeWhile_cons_of_neg]
      simpa using ended
  | succ k ih =>
    intro s inside kept ended
    rcases kept s (Nat.le_refl s) (by omega) with ⟨same, used⟩
    have rest := ih (s + 1) (by omega) (fun i low high => kept i (by omega) (by omega))
      (by rw [Nat.add_assoc, Nat.add_comm 1 k]; exact ended)
    have here := List.drop_eq_getElem_cons (show s < text.length by omega)
    rw [charAt_of_drop here] at same
    rw [here, List.take_succ_cons, <- same, <- rest, stringAt, stringAt]
    cases there : after.drop s with
    | nil =>
      rw [charAt_eq, there] at used
      exact absurd rfl used
    | cons d others =>
      rw [charAt_of_drop there] at used ⊢
      rw [List.takeWhile_cons_of_pos (by simpa using used), drop_add there, List.drop_one, List.tail_cons]

/-- After `nulterminate` every word of the command is the string at its start:
no NUL that ends a word is inside another one. -/
theorem nulterminate_words (free : NUL ∉ text) {fuel : Nat} {cmd : Cmd} {after : List Char}
    (parsed : parsecmd text fuel = .ok (cmd, after) s') {word : Span} (listed : word ∈ cmd.words) :
    IsToken (tokens 0 text) word /\
    stringAt after word.1 = (text.drop word.1).take (word.2 - word.1) /\
      ∀ other, other ∈ cmd.words -> ¬ (word.1 <= other.2 /\ other.2 < word.2) := by
  rcases line_of_parsecmd free parsed with ⟨derived, rfl⟩
  have delimits := delimits_of_line free derived listed
  have order := delimits.maximal.nonempty
  have inside := delimits.maximal.inside
  have stop : word.1 + (word.2 - word.1) = word.2 := by omega
  refine ⟨derived.isToken listed,
    stringAt_eq _ _ (by rw [stop]; exact inside) ?_ (by rw [stop]; exact delimits.ended), ?_⟩
  · rw [stop]
    exact delimits.kept
  · rintro other known ⟨low, high⟩
    exact (delimits.kept other.2 low high).2 (delimits_of_line free derived known).ended

theorem nulterminate_words_piped : ∃ after cmd,
    parsecmd piped 80 = .ok (cmd, after) 15 /\ (11, 12) ∈ cmd.words /\
    stringAt after 11 = ['b'] := by
  have free : NUL ∉ piped := by decide
  have listed : (11, 12) ∈ pipedCmd.words := by decide
  exact ⟨_, _, parsecmd_piped, listed, (nulterminate_words free parsecmd_piped listed).2.1⟩

end Xv6.Shell
