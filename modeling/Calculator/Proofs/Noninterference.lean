import Calculator.Proofs.Truthfulness
import Mathlib.Data.List.Forall2

/-!
# Failures do not depend on the numbers

Whether a text has a value, and how it fails if it has none, is not changed by writing other digits
in place of its digits. So no division by zero, no overflow and nothing else that happens to the
numbers of an expression can make it fail, or make another expression of it.

The texts that differ in their digits only are those that become the same when every digit is made a
zero. A run of the rules on such a text is the run on the original with zeros for all digits, in the
states passed, in the expressions found and in the failures (`Runs.zeroed`). Both of two texts that
differ in digits only have the same run with zeros, so their own runs differ in digits only.

## Main definitions

* `SameButDigits`: texts that differ in their digits only.
* `Expr.zeroed`, `Parser.Reply.zeroed`: expressions and replies with zeros for all digits.
* `Failure.Cause.quoting`: a cause that quotes another text.

## Main results

* `Parser.parse_zeroed`: a text with zeros is parsed as the text is, with zeros.
* `evaluate_congr_digits`: texts that differ in digits only fail alike.
-/

namespace Calculator

/-! ### Zeros for all digits -/

/-- Two texts of the same length that have the same character or two digits in every place. -/
def SameButDigits (w w' : List Char) : Prop :=
  List.Forall₂ (fun c c' => c = c' ∨ c.isDigit = true ∧ c'.isDigit = true) w w'

/-- A zero in place of a digit, and every other character as it is. -/
def zeroDigit (c : Char) : Char :=
  if c.isDigit then '0' else c

/-- A text with zeros for all its digits. -/
def zeroDigits (w : List Char) : List Char :=
  w.map zeroDigit

section ZeroDigit

variable {α : Type} {c c' : Char} {w w' g run : List Char}

theorem zeroDigit_of_not (h : c.isDigit = false) : zeroDigit c = c := by
  simp [zeroDigit, h]

/-- What is the same for all digits is not changed by making a digit a zero. -/
theorem apply_zeroDigit {f : Char → α} (h : ∀ d : Char, d.isDigit = true → f d = f '0') (c : Char) :
    f (zeroDigit c) = f c := by
  unfold zeroDigit
  split_ifs with hc
  · exact (h c hc).symm
  · rfl

theorem isDigit_zeroDigit (c : Char) : (zeroDigit c).isDigit = c.isDigit :=
  apply_zeroDigit (fun _ hd => hd) c

theorem isNumeralChar_of_isDigit (h : c.isDigit = true) : isNumeralChar c = true := by
  rw [isNumeralChar, h, Bool.true_or]

theorem isNumeralChar_zeroDigit (c : Char) : isNumeralChar (zeroDigit c) = isNumeralChar c :=
  apply_zeroDigit (fun _ hd => isNumeralChar_of_isDigit hd) c

theorem isLower_zeroDigit (c : Char) : (zeroDigit c).isLower = c.isLower :=
  apply_zeroDigit (fun _ hd => isLower_eq_false_of_isNumeralChar (isNumeralChar_of_isDigit hd)) c

/-- All digits take one byte. -/
theorem utf8Size_zeroDigit (c : Char) : (zeroDigit c).utf8Size = c.utf8Size := by
  refine apply_zeroDigit (fun d hd => ?_) c
  have hascii : d.val ≤ 127 := by
    simp only [Char.isDigit, Bool.and_eq_true, decide_eq_true_eq, UInt32.le_iff_toNat_le] at hd ⊢
    exact hd.2.trans (by decide)
  rw [Char.utf8Size_eq_one_iff.mpr hascii]
  rfl

/-- No digit is an operator. -/
theorem Level.operator?_zeroDigit (level : Level) (c : Char) :
    level.operator? (zeroDigit c) = level.operator? c := by
  have hnone : ∀ d : Char, d.isDigit = true → level.operator? d = none := by
    intro d hd
    refine Option.eq_none_iff_forall_ne_some.mpr fun op hop => ?_
    obtain ⟨-, rfl⟩ := Level.operator?_eq_some_iff.mp hop
    cases op <;> cases hd
  exact apply_zeroDigit (fun d hd => (hnone d hd).trans (hnone '0' rfl).symm) c

/-- No digit is a sign. -/
theorem Sign.ofChar?_zeroDigit (c : Char) : Sign.ofChar? (zeroDigit c) = Sign.ofChar? c := by
  have hnone : ∀ d : Char, d.isDigit = true → Sign.ofChar? d = none := by
    intro d hd
    refine Option.eq_none_iff_forall_ne_some.mpr fun sign hsign => ?_
    obtain rfl := Sign.ofChar?_eq_some_iff.mp hsign
    cases sign <;> cases hd
  exact apply_zeroDigit (fun d hd => (hnone d hd).trans (hnone '0' rfl).symm) c

theorem zeroDigit_eq_iff :
    zeroDigit c = zeroDigit c' ↔ c = c' ∨ c.isDigit = true ∧ c'.isDigit = true := by
  constructor
  · intro h
    have hdigit : c.isDigit = c'.isDigit := by
      rw [← isDigit_zeroDigit c, h, isDigit_zeroDigit c']
    rcases hc : c.isDigit with _ | _
    · rw [zeroDigit_of_not hc, zeroDigit_of_not (hdigit ▸ hc)] at h
      exact .inl h
    · exact .inr ⟨rfl, hdigit ▸ hc⟩
  · rintro (rfl | ⟨hc, hc'⟩)
    · rfl
    · rw [zeroDigit, if_pos hc, zeroDigit, if_pos hc']

/-- Two texts differ in digits only if they are the same with zeros for all digits. -/
theorem sameButDigits_iff : SameButDigits w w' ↔ zeroDigits w = zeroDigits w' := by
  rw [← List.forall₂_eq_eq_eq, zeroDigits, zeroDigits, List.forall₂_map_left_iff,
    List.forall₂_map_right_iff]
  simp only [zeroDigit_eq_iff]
  rfl

@[simp]
theorem zeroDigits_append (w w' : List Char) :
    zeroDigits (w ++ w') = zeroDigits w ++ zeroDigits w' :=
  List.map_append

theorem zeroDigits_of_not (h : ∀ c ∈ w, c.isDigit = false) : zeroDigits w = w := by
  rw [zeroDigits, List.map_congr_left fun c hc => zeroDigit_of_not (h c hc), List.map_id']

theorem zeroDigits_name (h : ∀ c ∈ run, c.isLower = true) : zeroDigits run = run := by
  refine zeroDigits_of_not fun c hc => ?_
  rw [Bool.eq_false_iff]
  intro hdigit
  have hlower := isLower_eq_false_of_isNumeralChar (isNumeralChar_of_isDigit hdigit)
  rw [h c hc] at hlower
  cases hlower

theorem Gap.zeroDigits_eq (hg : Gap g) : zeroDigits g = g := by
  refine zeroDigits_of_not fun c hc => ?_
  rw [hg c hc]
  rfl

theorem byteLength_zeroDigits (w : List Char) : byteLength (zeroDigits w) = byteLength w := by
  induction w with
  | nil => rfl
  | cons c w ih =>
    rw [byteLength_cons, ← ih, ← utf8Size_zeroDigit c]
    rfl

end ZeroDigit

/-! ### Numerals, expressions and failures -/

/-- The numeral with zeros for all its digits, and as many of them behind the point. -/
def Numeral.zeroed (n : Numeral) : Numeral :=
  ⟨0, n.places⟩

/-- The value of digits that are all zeros. -/
theorem ofDigitChars_zeroDigits {w : List Char} (h : ∀ c ∈ w, c.isDigit = true) :
    Nat.ofDigitChars 10 (zeroDigits w) 0 = 0 := by
  have hzeros : zeroDigits w = List.replicate w.length '0' :=
    List.map_eq_replicate_iff.mpr fun c hc => by rw [zeroDigit, if_pos (h c hc)]
  rw [hzeros, Nat.ofDigitChars_replicate_zero, Nat.mul_zero]

theorem Numeral.ofParts?_zeroDigits {whole fraction : List Char}
    (hwhole : ∀ c ∈ whole, c.isDigit = true) (hfraction : ∀ c ∈ fraction, c.isDigit = true) :
    Numeral.ofParts? (zeroDigits whole) (zeroDigits fraction) =
      (Numeral.ofParts? whole fraction).map Numeral.zeroed := by
  have hdigits : ∀ c ∈ whole ++ fraction, c.isDigit = true := by
    intro c hc
    exact (List.mem_append.mp hc).elim (hwhole c) (hfraction c)
  have hempty (w : List Char) : (zeroDigits w).isEmpty = w.isEmpty := List.isEmpty_map
  have hlength : (zeroDigits fraction).length = fraction.length := List.length_map _
  rw [Numeral.ofParts?, Numeral.ofParts?, hempty, hempty, ← zeroDigits_append,
    ofDigitChars_zeroDigits hdigits, hlength]
  split_ifs <;> rfl

/-- Whether a run of digits and points is a numeral does not depend on which digits there are. -/
theorem Numeral.ofRun?_zeroDigits {run : List Char} (hchars : ∀ c ∈ run, isNumeralChar c = true) :
    Numeral.ofRun? (zeroDigits run) = (Numeral.ofRun? run).map Numeral.zeroed := by
  have hzeroed : ∀ {w : List Char}, (∀ c ∈ w, c.isDigit = true) →
      ∀ c ∈ zeroDigits w, c.isDigit = true := by
    intro w hw c hc
    obtain ⟨d, hd, rfl⟩ := List.mem_map.mp hc
    rw [isDigit_zeroDigit]
    exact hw d hd
  rcases Grammar.digits_or_point hchars with h | ⟨whole, fraction, rfl, h⟩
  · rw [Grammar.ofRun?_of_digits h, Grammar.ofRun?_of_digits (hzeroed h)]
    show Numeral.ofParts? (zeroDigits run) (zeroDigits []) = _
    exact ofParts?_zeroDigits h (by simp)
  · have hpoint : zeroDigits (whole ++ '.' :: fraction) =
        zeroDigits whole ++ '.' :: zeroDigits fraction := zeroDigits_append _ _
    have hall : (zeroDigits fraction).all Char.isDigit = fraction.all Char.isDigit := by
      rw [zeroDigits, List.all_map]
      exact congrArg fraction.all (funext isDigit_zeroDigit)
    rw [hpoint, Grammar.ofRun?_of_point h, Grammar.ofRun?_of_point (hzeroed h), hall]
    split_ifs with hfraction
    · exact ofParts?_zeroDigits h (List.all_eq_true.mp hfraction)
    · rfl

/-- The expression with zeros for all digits of its numerals. -/
def Expr.zeroed : Expr → Expr
  | .numeral n => .numeral n.zeroed
  | .constant c => .constant c
  | .group inner => .group inner.zeroed
  | .signed sign operand => .signed sign operand.zeroed
  | .call f argument => .call f argument.zeroed
  | .power base exponent => .power base.zeroed exponent.zeroed
  | .binary op left right => .binary op left.zeroed right.zeroed

/-- The cause with zeros for all digits of the texts that it quotes. -/
def Failure.Cause.zeroed : Failure.Cause → Failure.Cause
  | .trailingInput rest => .trailingInput (String.ofList (zeroDigits rest.toList))
  | .malformedNumeral literal =>
    .malformedNumeral (String.ofList (zeroDigits literal.toList))
  | cause => cause

theorem Failure.Cause.zeroed_trailingInput (rest : List Char) :
    (trailingInput (String.ofList rest)).zeroed =
      .trailingInput (String.ofList (zeroDigits rest)) := by
  rw [zeroed, String.toList_ofList]

theorem Failure.Cause.zeroed_malformedNumeral (run : List Char) :
    (malformedNumeral (String.ofList run)).zeroed =
      .malformedNumeral (String.ofList (zeroDigits run)) := by
  rw [zeroed, String.toList_ofList]

/-- The failure with zeros for all digits of the texts that it quotes. -/
def Failure.zeroed (f : Failure) : Failure :=
  ⟨f.cause.zeroed, f.position⟩

namespace Parser

/-- The state with zeros for all digits of its text. -/
def State.zeroed (s : State) : State :=
  { s with cursor := ⟨zeroDigits s.cursor.passed, zeroDigits s.cursor.rest⟩ }

/-- The rule with zeros for all digits of the operands that it goes on behind. -/
def Rule.zeroed : Rule → Rule
  | .chain level => .chain level
  | .more level left => .more level left.zeroed
  | .factor => .factor
  | .openFactor => .openFactor
  | .openPower base => .openPower base.zeroed
  | .openPrimary => .openPrimary
  | .close inner => .close inner.zeroed
  | .done e => .done e.zeroed

/-- The reply with zeros for all digits. -/
def Reply.zeroed (reply : Reply Expr) : Reply Expr :=
  ⟨match reply.result with
    | .ok e => .ok e.zeroed
    | .error f => .error f.zeroed,
    reply.state.zeroed⟩

variable {rule r : Rule} {s s₁ t : State} {next : Expr → Rule} {reply : Reply Expr}
  {w g run : List Char} {limit : Nat} {text : List Char}

/-! ### States -/

namespace State

theorem position_zeroed (s : State) : s.zeroed.cursor.position = s.cursor.position :=
  byteLength_zeroDigits s.cursor.passed

theorem peek_zeroed (s : State) : s.zeroed.peek = s.peek.map zeroDigit :=
  List.head?_map

theorem next?_zeroed {α : Type} {read : Char → Option α}
    (hread : ∀ c, read (zeroDigit c) = read c) (s : State) :
    s.zeroed.next? read = s.next? read := by
  rw [next?, peek_zeroed, next?]
  rcases s.peek with _ | c
  · rfl
  · exact hread c

/-- A character that is no digit comes next in both texts or in neither. -/
theorem peek_zeroed_eq_some_iff {c : Char} (hc : c.isDigit = false) :
    s.zeroed.peek = some c ↔ s.peek = some c := by
  rw [peek_zeroed, Option.map_eq_some_iff]
  constructor
  · rintro ⟨d, hpeek, hd⟩
    have hdigit : d.isDigit = false := by rw [← isDigit_zeroDigit, hd, hc]
    rw [hpeek, ← hd, zeroDigit_of_not hdigit]
  · intro hpeek
    exact ⟨c, hpeek, zeroDigit_of_not hc⟩

theorem Passes.zeroed (h : s.Passes w t) :
    s.zeroed.Passes (zeroDigits w) t.zeroed := by
  refine ⟨⟨?_, ?_⟩, ?_⟩
  · show zeroDigits s.cursor.rest = _
    rw [h.cursor.rest_eq, zeroDigits_append]
    rfl
  · show zeroDigits t.cursor.passed = _
    rw [h.cursor.passed_eq, zeroDigits_append, zeroDigits, List.map_reverse]
    rfl
  · rw [h.eq]
    rfl

/-- A symbol behind spaces is passed in both texts. -/
theorem Passes.zeroed_symbol {c : Char} (hgap : Gap g) (hc : zeroDigit c = c)
    (h : s.Passes (g ++ [c]) t) : s.zeroed.Passes (g ++ [c]) t.zeroed := by
  have hpass := h.zeroed
  rwa [zeroDigits_append, hgap.zeroDigits_eq, zeroDigits, List.map_singleton, hc] at hpass

theorem Skips.zeroed (h : s.Skips g t) : s.zeroed.Skips g t.zeroed := by
  refine ⟨?_, h.gap, fun hpeek => h.stop ((peek_zeroed_eq_some_iff rfl).mp hpeek)⟩
  have hpass := h.passes.zeroed
  rwa [h.gap.zeroDigits_eq] at hpass

theorem Scans.zeroed {accept : Char → Bool} (haccept : ∀ c, accept (zeroDigit c) = accept c)
    (h : s.Scans accept run t) : s.zeroed.Scans accept (zeroDigits run) t.zeroed := by
  refine ⟨h.passes.zeroed, fun c hc => ?_, fun c hc => ?_⟩
  · obtain ⟨d, hd, rfl⟩ := List.mem_map.mp hc
    rw [haccept]
    exact h.all d hd
  · rw [Option.mem_def, peek_zeroed, Option.map_eq_some_iff] at hc
    obtain ⟨d, hd, rfl⟩ := hc
    rw [haccept]
    exact h.stop d hd

/-- A name is passed in both texts. -/
theorem Scans.zeroed_name (h : s.Scans Char.isLower run t) :
    s.zeroed.Scans Char.isLower run t.zeroed := by
  have hscan := h.zeroed isLower_zeroDigit
  rwa [zeroDigits_name h.all] at hscan

end State

/-! ### Steps and runs -/

/-- A symbol is no digit. -/
theorem zeroDigit_symbol {level : Level} {c : Char} {op : Operator}
    (h : level.operator? c = some op) : zeroDigit c = c := by
  obtain ⟨-, rfl⟩ := Level.operator?_eq_some_iff.mp h
  cases op <;> rfl

theorem zeroDigit_sign {c : Char} {sign : Sign} (h : Sign.ofChar? c = some sign) :
    zeroDigit c = c := by
  obtain rfl := Sign.ofChar?_eq_some_iff.mp h
  cases sign <;> rfl

theorem Rule.zeroed_operand (level : Level) : (Rule.operand level).zeroed = .operand level := by
  cases level <;> rfl

theorem Stops.zeroed (h : Stops rule s reply) : Stops rule.zeroed s.zeroed reply.zeroed := by
  cases h with
  | @more level _ _ _ _ hskip hop =>
    refine .more hskip.zeroed ?_
    rw [State.next?_zeroed level.operator?_zeroDigit, hop]
  | tooDeep hdepth =>
    have hstop : Stops .factor s.zeroed _ := .tooDeep hdepth
    rwa [State.position_zeroed] at hstop
  | power hskip hcaret =>
    exact .power hskip.zeroed fun hpeek => hcaret ((State.peek_zeroed_eq_some_iff rfl).mp hpeek)
  | unexpectedEnd hpeek =>
    have hpeek' : s.zeroed.peek = none := by rw [State.peek_zeroed, hpeek, Option.map_none]
    have hstop := Stops.unexpectedEnd hpeek'
    rwa [State.position_zeroed] at hstop
  | @unexpectedCharacter _ found hpeek hparen hnumeral hlower =>
    have hdigit : found.isDigit = false := (Bool.or_eq_false_iff.mp hnumeral).1
    have hpeek' := (State.peek_zeroed_eq_some_iff hdigit).mpr hpeek
    have hstop := Stops.unexpectedCharacter hpeek' hparen hnumeral hlower
    rwa [State.position_zeroed] at hstop
  | @numeral _ _ run n hscan hrun hn =>
    have hn' : Numeral.ofRun? (zeroDigits run) = some n.zeroed := by
      rw [Numeral.ofRun?_zeroDigits hscan.all, hn, Option.map_some]
    exact .numeral (hscan.zeroed isNumeralChar_zeroDigit) (by simpa [zeroDigits]) hn'
  | @malformedNumeral _ t run hscan hrun hn =>
    have hn' : Numeral.ofRun? (zeroDigits run) = none := by
      rw [Numeral.ofRun?_zeroDigits hscan.all, hn, Option.map_none]
    have hstop := Stops.malformedNumeral (hscan.zeroed isNumeralChar_zeroDigit)
      (by simpa [zeroDigits]) hn'
    rw [State.position_zeroed, ← Failure.Cause.zeroed_malformedNumeral] at hstop
    exact hstop
  | constant hscan hrun hc => exact .constant hscan.zeroed_name hrun hc
  | unknownName hscan hrun hname =>
    have hstop := Stops.unknownName hscan.zeroed_name hrun hname
    rwa [State.position_zeroed] at hstop
  | close hgap hpass => exact .close hgap (hpass.zeroed_symbol hgap rfl)
  | @unclosed inner _ _ _ hskip hparen =>
    have hstop : Stops (.close inner.zeroed) s.zeroed _ :=
      .unclosed hskip.zeroed fun hpeek => hparen ((State.peek_zeroed_eq_some_iff rfl).mp hpeek)
    rwa [State.position_zeroed] at hstop
  | done => exact .done

/-- The rule that goes on does so behind the operand with zeros. -/
theorem Starts.zeroed (h : Starts rule s r s₁ next) :
    ∃ next', Starts rule.zeroed s.zeroed r.zeroed s₁.zeroed next' ∧
      ∀ e : Expr, next' e.zeroed = (next e).zeroed := by
  cases h with
  | @chain level =>
    rw [Rule.zeroed_operand]
    exact ⟨_, .chain, fun _ => rfl⟩
  | @more level _ _ _ _ _ _ hgap hpass hop =>
    rw [Rule.zeroed_operand]
    exact ⟨_, .more hgap (hpass.zeroed_symbol hgap (zeroDigit_symbol hop)) hop, fun _ => rfl⟩
  | factor hdepth => exact ⟨_, .factor hdepth, fun _ => rfl⟩
  | sign hgap hpass hsign =>
    exact ⟨_, .sign hgap (hpass.zeroed_symbol hgap (zeroDigit_sign hsign)) hsign, fun _ => rfl⟩
  | primary hskip hsign =>
    refine ⟨_, .primary hskip.zeroed ?_, fun _ => rfl⟩
    rw [State.next?_zeroed Sign.ofChar?_zeroDigit, hsign]
  | power hgap hpass => exact ⟨_, .power hgap (hpass.zeroed_symbol hgap rfl), fun _ => rfl⟩
  | group hpass => exact ⟨_, .group hpass.zeroed, fun _ => rfl⟩
  | call hscan hrun hf => exact ⟨_, .call hscan.zeroed_name hrun hf, fun _ => rfl⟩

/-- A run on a text with zeros for all digits is the run on the text, with zeros. -/
theorem Runs.zeroed (h : Runs rule s reply) : Runs rule.zeroed s.zeroed reply.zeroed := by
  induction h with
  | stop hstop => exact .stop hstop.zeroed
  | fail hstart _ ih =>
    obtain ⟨next', hstart', -⟩ := hstart.zeroed
    exact .fail hstart' ih
  | next hstart _ _ ih ihnext =>
    obtain ⟨next', hstart', hnext'⟩ := hstart.zeroed
    refine .next hstart' ih ?_
    rw [hnext']
    exact ihnext

theorem Parses.zeroed (h : Parses limit text reply) :
    Parses limit (zeroDigits text) reply.zeroed := by
  have hempty (s : State) : s.zeroed.cursor.rest = [] ↔ s.cursor.rest = [] := List.map_eq_nil_iff
  cases h with
  | ok hrun hskip hend => exact .ok hrun.zeroed hskip.zeroed ((hempty _).mpr hend)
  | fail hrun => exact .fail hrun.zeroed
  | @trailing _ _ t _ hrun hskip hend =>
    have hparse : Parses limit (zeroDigits text) _ :=
      .trailing hrun.zeroed hskip.zeroed (mt (hempty t).mp hend)
    have hrest : t.zeroed.cursor.rest = zeroDigits t.cursor.rest := rfl
    rw [State.position_zeroed, hrest, ← Failure.Cause.zeroed_trailingInput] at hparse
    exact hparse

/-- A text with zeros for all digits is parsed as the text is, with zeros. -/
theorem parse_zeroed (limit : Nat) (text : List Char) :
    parse limit (zeroDigits text) = (parse limit text).zeroed :=
  (parses_parse limit text).zeroed.parse_eq

/-- Replies that are the same with zeros for all digits are of the same kind. -/
theorem Reply.zeroed_inj {reply reply' : Reply Expr} (h : reply'.zeroed = reply.zeroed) :
    (∀ e, reply.result = .ok e → ∃ e', reply'.result = .ok e' ∧ e'.zeroed = e.zeroed) ∧
      ∀ f, reply.result = .error f → ∃ f', reply'.result = .error f' ∧ f'.zeroed = f.zeroed := by
  have hresult := congrArg Reply.result h
  unfold zeroed at hresult
  constructor
  · intro e he
    rw [he] at hresult
    rcases hreply : reply'.result with f' | e'
    · rw [hreply] at hresult
      cases hresult
    · rw [hreply] at hresult
      exact ⟨e', rfl, Except.ok.inj hresult⟩
  · intro f hf
    rw [hf] at hresult
    rcases hreply : reply'.result with f' | e'
    · rw [hreply] at hresult
      exact ⟨f', rfl, Except.error.inj hresult⟩
    · rw [hreply] at hresult
      cases hresult

/-- Texts that differ in digits only are parsed alike. -/
theorem parse_zeroed_of_sameButDigits {text' : List Char} (h : SameButDigits text text') :
    (parse limit text').zeroed = (parse limit text).zeroed := by
  rw [← parse_zeroed, ← sameButDigits_iff.mp h, parse_zeroed]

end Parser

/-! ### Whole texts -/

/-- The same cause, with what it quotes taken from the start of another text. -/
def Failure.Cause.quoting (after : List Char) : Failure.Cause → Failure.Cause
  | .trailingInput _ => .trailingInput (String.ofList after)
  | .malformedNumeral literal => .malformedNumeral (String.ofList (after.take literal.length))
  | cause => cause

/-- How much a cause quotes does not depend on which digits there are. -/
theorem Failure.Cause.quoting_zeroed (after : List Char) (cause : Failure.Cause) :
    cause.zeroed.quoting after = cause.quoting after := by
  cases cause with
  | malformedNumeral literal =>
    have hlength : (String.ofList (zeroDigits literal.toList)).length = literal.length := by
      rw [String.length_ofList, zeroDigits, List.length_map, String.length_toList]
    rw [zeroed, quoting, quoting, hlength]
  | _ => rfl

/-- A cause quotes the text behind its position. -/
theorem Failure.Cause.Describes.quoting_eq {limit : Nat} {before after : List Char}
    {cause : Failure.Cause} (h : cause.Describes limit before after) :
    cause.quoting after = cause := by
  cases cause with
  | trailingInput rest =>
    obtain rfl : after = rest.toList := h
    rw [quoting, String.ofList_toList]
  | malformedNumeral literal =>
    obtain ⟨⟨rest, rfl, -⟩, -⟩ := h
    rw [quoting, ← String.length_toList, List.take_left, String.ofList_toList]
  | _ => rfl

/-- Failures that are the same with zeros for all digits quote what their texts have at the same
place. -/
theorem Parser.Parses.quoting_of_sameButDigits {limit : Nat} {text text' : List Char}
    {f f' : Failure} {t t' : State} (h : SameButDigits text text')
    (hparse : Parses limit text ⟨.error f, t⟩) (hparse' : Parses limit text' ⟨.error f', t'⟩)
    (hf : f'.zeroed = f.zeroed) :
    ∃ before after before' after', text = before ++ after ∧ text' = before' ++ after' ∧
      SameButDigits before before' ∧ SameButDigits after after' ∧ byteLength before = f.position ∧
      f.cause = f.cause.quoting after ∧ f' = ⟨f.cause.quoting after', f.position⟩ := by
  obtain ⟨before, after, htext, hposition, hdescribes⟩ := hparse.describes
  obtain ⟨before', after', htext', hposition', hdescribes'⟩ := hparse'.describes
  obtain ⟨hcause, hplace⟩ := Failure.mk.inj hf
  -- Both texts are cut at the same byte, so they are cut at the same character.
  have hcut : zeroDigits before = zeroDigits before' ∧ zeroDigits after = zeroDigits after' := by
    apply append_inj_of_byteLength
    · rw [← zeroDigits_append, ← zeroDigits_append, ← htext, ← htext', sameButDigits_iff.mp h]
    · rw [byteLength_zeroDigits, byteLength_zeroDigits, hposition, hposition', hplace]
  have hquoting : f'.cause = f.cause.quoting after' :=
    calc f'.cause = f'.cause.zeroed.quoting after' := by
          rw [Failure.Cause.quoting_zeroed, hdescribes'.quoting_eq]
      _ = f.cause.quoting after' := by rw [hcause, Failure.Cause.quoting_zeroed]
  refine ⟨before, after, before', after', htext, htext', sameButDigits_iff.mpr hcut.1,
    sameButDigits_iff.mpr hcut.2, hposition, hdescribes.quoting_eq.symm, ?_⟩
  rw [← hquoting, ← hplace]

open Calculator.Parser

/-- Other digits in place of the digits of a text change neither whether it has a value nor how it
fails. If it has one, then the same expression is found, up to the digits of its numerals. If it
fails, then the other text fails for the same cause at the same position, and what the failure
quotes is quoted with the other digits. -/
theorem evaluate_congr_digits {options : Options} {text text' : String}
    (h : SameButDigits text.toList text'.toList) :
    ((∃ v, evaluate options text = .ok v) ↔ ∃ v, evaluate options text' = .ok v) ∧
    (∀ e, (parse options.maxDepth text.toList).result = .ok e →
      ∃ e', (parse options.maxDepth text'.toList).result = .ok e' ∧ e'.zeroed = e.zeroed) ∧
    ∀ f, evaluate options text = .error f →
      ∃ before after before' after' : String, text = before ++ after ∧ text' = before' ++ after' ∧
        SameButDigits before.toList before'.toList ∧ SameButDigits after.toList after'.toList ∧
        before.utf8ByteSize = f.position ∧ f.cause = f.cause.quoting after.toList ∧
        evaluate options text' = .error ⟨f.cause.quoting after'.toList, f.position⟩ := by
  have hreply : (parse options.maxDepth text'.toList).zeroed =
      (parse options.maxDepth text.toList).zeroed := parse_zeroed_of_sameButDigits h
  obtain ⟨hok, herror⟩ := Reply.zeroed_inj hreply
  obtain ⟨hok', -⟩ := Reply.zeroed_inj hreply.symm
  refine ⟨?_, hok, fun f hf => ?_⟩
  · rw [exists_evaluate_eq_ok_iff, exists_evaluate_eq_ok_iff]
    constructor
    · rintro ⟨e, he⟩
      obtain ⟨e', he', -⟩ := hok e he
      exact ⟨e', he'⟩
    · rintro ⟨e', he'⟩
      obtain ⟨e, he, -⟩ := hok' e' he'
      exact ⟨e, he⟩
  · obtain ⟨t, hparse⟩ := evaluate_eq_error_iff.mp hf
    obtain ⟨f', hf', hzeroed⟩ := herror f (by rw [hparse.parse_eq])
    have hparse' : Parses options.maxDepth text'.toList
        ⟨.error f', (parse options.maxDepth text'.toList).state⟩ := by
      rw [← hf']
      exact parses_parse options.maxDepth text'.toList
    obtain ⟨before, after, before', after', htext, htext', hbefore, hafter, hposition, hcause,
      rfl⟩ := hparse.quoting_of_sameButDigits h hparse' hzeroed
    refine ⟨String.ofList before, String.ofList after, String.ofList before', String.ofList after',
      ?_, ?_, ?_, ?_, ?_, ?_, ?_⟩
    · rw [← String.ofList_append, ← htext, String.ofList_toList]
    · rw [← String.ofList_append, ← htext', String.ofList_toList]
    · rwa [String.toList_ofList, String.toList_ofList]
    · rwa [String.toList_ofList, String.toList_ofList]
    · rw [utf8ByteSize_ofList, hposition]
    · rwa [String.toList_ofList]
    · rw [String.toList_ofList]
      exact evaluate_eq_error_iff.mpr ⟨_, hparse'⟩

/-- Behind a division by zero and behind another division, the same run of digits and points is
refused, with the digits that it has there. -/
theorem evaluate_congr_digits_division :
    SameButDigits "1/0+1.2.3".toList "7/5+4.5.6".toList ∧
      evaluate {} "1/0+1.2.3" = .error ⟨.malformedNumeral "1.2.3", 4⟩ ∧
      ∃ before after before' after' : String,
        "1/0+1.2.3" = before ++ after ∧ "7/5+4.5.6" = before' ++ after' ∧
        SameButDigits before.toList before'.toList ∧ SameButDigits after.toList after'.toList ∧
        before.utf8ByteSize = 4 ∧
        evaluate {} "7/5+4.5.6" =
          .error ⟨.malformedNumeral (String.ofList (after'.toList.take 5)), 4⟩ := by
  have hsame : SameButDigits "1/0+1.2.3".toList "7/5+4.5.6".toList :=
    sameButDigits_iff.mpr (by decide)
  have hfails : evaluate {} "1/0+1.2.3" = .error ⟨.malformedNumeral "1.2.3", 4⟩ := by
    decide +kernel
  obtain ⟨before, after, before', after', htext, htext', hbefore, hafter, hposition, -, hfails'⟩ :=
    (evaluate_congr_digits hsame).2.2 _ hfails
  exact ⟨hsame, hfails, before, after, before', after', htext, htext', hbefore, hafter, hposition,
    hfails'⟩

end Calculator
