import Calculator.Proofs.Completeness
import Calculator.Proofs.Openings

/-!
# What is left over

When a text is refused for what is left over behind an expression. All of the text in front of that
is the expression, so it would be one on its own too. What is left over starts with a character that
neither goes on with an expression nor belongs to the last token in front of it: rules pass whole
tokens, so every rule is started and ends between two tokens.

## Main definitions

* `State.Parted`: no token goes on from one side of a cursor to the other.

## Main results

* `Runs.parted`: a run that is started between two tokens ends between two tokens.
* `exists_parses_leftOver`: an expression in front of a text that does not go on with it.
* `evaluate_append_eq_trailingInput_iff`: exactly the texts that are refused for what is left over.
-/

namespace Calculator.Parser

open Grammar

variable {rule r : Rule} {s s₁ t : State} {next : Expr → Rule} {e : Expr} {limit : Nat}
  {w rest run : List Char}

/-! ## Between tokens -/

/-- The characters on both sides of the cursor do not belong to one token. -/
def State.Parted (s : State) : Prop :=
  ∀ last ∈ s.cursor.before.getLast?, ∀ c ∈ s.peek, joins last c = false

namespace State

/-- Nothing stands in front of a text. -/
theorem parted_start (limit : Nat) (text : List Char) : (State.start limit text).Parted := by
  rintro last ⟨⟩

/-- Behind a text that is passed, only the end of that text counts. -/
theorem Reaches.parted (h : s.Reaches w t) (hs : s.Parted)
    (hw : ∀ last ∈ w.getLast?, ∀ c ∈ t.peek, joins last c = false) : t.Parted := by
  intro last hlast c hc
  rcases List.eq_nil_or_concat w with rfl | ⟨w, x, rfl⟩
  · have hcursor : t.cursor = s.cursor := h.cursor.unique (.refl s.cursor)
    rw [hcursor] at hlast
    rw [State.peek, hcursor] at hc
    exact hs last hlast c hc
  · have hbefore : t.cursor.before = s.cursor.before ++ w.concat x := h.cursor.before_eq
    rw [hbefore, List.concat_eq_append, ← List.append_assoc, List.getLast?_concat] at hlast
    refine hw last ?_ c hc
    rw [List.concat_eq_append, List.getLast?_concat]
    exact hlast

/-- Spaces and symbols belong to no token but themselves. -/
theorem Reaches.parted_of_symbol (h : s.Reaches w t) (hs : s.Parted)
    (hw : ∀ last ∈ w.getLast?, last.isLower = false ∧ isNumeralChar last = false) : t.Parted := by
  refine h.parted hs fun last hlast c _ => ?_
  obtain ⟨hlower, hnumeral⟩ := hw last hlast
  simp [joins, hlower, hnumeral]

theorem Passes.parted_of_symbol {g : List Char} {c : Char} (h : s.Passes (g ++ [c]) t)
    (hs : s.Parted) (hlower : c.isLower = false) (hnumeral : isNumeralChar c = false) :
    t.Parted := by
  refine h.reaches.parted_of_symbol hs fun last hlast => ?_
  rw [List.getLast?_concat] at hlast
  obtain rfl := Option.some.inj hlast
  exact ⟨hlower, hnumeral⟩

theorem Skips.parted {g : List Char} (h : s.Skips g t) (hs : s.Parted) : t.Parted := by
  refine h.passes.reaches.parted_of_symbol hs fun last hlast => ?_
  obtain rfl := h.gap last (List.mem_of_getLast? hlast)
  exact ⟨by decide, by decide⟩

/-- A longest run of letters is a whole token. -/
theorem Scans.parted_of_isLower (h : s.Scans Char.isLower run t) (hs : s.Parted) : t.Parted := by
  refine h.passes.reaches.parted hs fun last hlast c hc => ?_
  have hlast : last.isLower = true := h.all last (List.mem_of_getLast? hlast)
  simp [joins, h.stop c hc, isNumeralChar_eq_false_of_isLower hlast]

/-- A longest run of digits and points is a whole token. -/
theorem Scans.parted_of_isNumeralChar (h : s.Scans isNumeralChar run t) (hs : s.Parted) :
    t.Parted := by
  refine h.passes.reaches.parted hs fun last hlast c hc => ?_
  have hlast : isNumeralChar last = true := h.all last (List.mem_of_getLast? hlast)
  simp [joins, h.stop c hc, isLower_eq_false_of_isNumeralChar hlast]

end State

/-- A step that succeeds ends between two tokens. -/
theorem Stops.parted (h : Stops rule s ⟨.ok e, t⟩) (hs : s.Parted) : t.Parted := by
  cases h with
  | more hskip | power hskip => exact hskip.parted hs
  | numeral hscan => exact hscan.parted_of_isNumeralChar hs
  | constant hscan => exact hscan.parted_of_isLower hs
  | close _ hpass => exact hpass.parted_of_symbol hs (by decide) (by decide)
  | done => exact hs

/-- Rules are started between two tokens. -/
theorem Starts.parted (h : Starts rule s r s₁ next) (hs : s.Parted) : s₁.Parted := by
  cases h with
  | chain | factor => exact hs
  | @more level _ _ _ _ _ op _ hpass hop =>
    obtain ⟨-, rfl⟩ := Level.operator?_eq_some_iff.mp hop
    exact hpass.parted_of_symbol hs (by cases op <;> decide) (by cases op <;> decide)
  | @sign _ _ _ _ sign _ hpass hsign =>
    obtain rfl := Sign.ofChar?_eq_some_iff.mp hsign
    exact hpass.parted_of_symbol hs (by cases sign <;> decide) (by cases sign <;> decide)
  | primary hskip => exact hskip.parted hs
  | power _ hpass => exact hpass.parted_of_symbol hs (by decide) (by decide)
  | group hpass =>
    exact State.Passes.parted_of_symbol (g := []) hpass hs (by decide) (by decide)
  | call hscan => exact hscan.parted_of_isLower hs

/-- A run that is started between two tokens and succeeds ends between two tokens. -/
theorem Runs.parted (h : Runs rule s ⟨.ok e, t⟩) (hs : s.Parted) : t.Parted := by
  induction h using Runs.ok_induction with
  | stop hstop => exact hstop.parted hs
  | @next rule r s s₁ u t next e e' hstart _ _ ih ihnext =>
    have hu : u.Parted := ih (hstart.parted hs)
    exact ihnext hu

/-! ## Whole texts -/

/-- A text is refused for what is left over behind an expression that does not go on with it. -/
theorem exists_parses_leftOver (h : Reads .expression w e) (hnest : e.nest ≤ limit)
    (hdelim : Delimits .expression w rest) (hne : rest ≠ []) :
    ∃ t, Parses limit (w ++ rest)
      ⟨.error ⟨.trailingInput (String.ofList rest), byteLength w⟩, t⟩ := by
  obtain ⟨T, rfl, hspells⟩ := h
  obtain ⟨d, hd, hdrest⟩ := State.exists_passes (s := .start limit (w ++ rest)) rfl
  have hdepth : (State.start limit (w ++ rest)).depth + T.expr.nest ≤ limit := by
    simpa [State.start] using hnest
  obtain ⟨t, ht, hrun⟩ :=
    (completes_of_spells hspells).runs_chain hd hdepth (by rwa [hdrest])
  have hrest : t.cursor.rest = rest := by rw [ht.cursor.unique hd.cursor, hdrest]
  have hposition : t.cursor.position = byteLength w := by
    rw [ht.cursor.position_eq]
    exact Nat.zero_add _
  have hspace : t.peek ≠ some ' ' := fun hpeek => by
    rw [State.peek, Cursor.peek, hrest] at hpeek
    exact (hdelim ' ' hpeek).1 rfl
  have hparse := Parses.trailing hrun (State.skips_refl hspace) (by rwa [hrest])
  rw [hrest, hposition] at hparse
  exact ⟨t, hparse⟩

/-- A text that is refused for what is left over is an expression and something that the expression
does not go on with. -/
theorem Parses.reads_of_trailingInput {text : List Char} {left : String} {position : Nat}
    (h : Parses limit text ⟨.error ⟨.trailingInput left, position⟩, t⟩) :
    ∃ w e, text = w ++ left.toList ∧ Reads .expression w e ∧ e.nest ≤ limit ∧
      Delimits .expression w left.toList ∧ left.toList ≠ [] := by
  cases h with
  | fail hrun =>
    -- No step of a rule reports what is left over.
    obtain ⟨r, u, v, hstop, -⟩ := hrun.exists_stops
    cases hstop
  | @trailing e s _ g hrun hskip hend =>
    -- The run has skipped all spaces, so the expression ends where it has come to.
    have hends : s.EndsAt .expression := hrun.ends
    obtain rfl := hskip.eq_self hends.1
    obtain ⟨w, hw, hmakes⟩ := hrun.makes
    have hfits := hrun.fits (Nat.zero_le _)
    have hparted := hrun.parted (State.parted_start limit text)
    have hbefore : t.cursor.before = w := hw.cursor.before_eq
    rw [String.toList_ofList]
    refine ⟨w, e, hw.cursor.rest_eq, hmakes, by simpa [Rule.Fits, State.start] using hfits,
      fun c hc => ⟨?_, hends.2 c hc, fun last hlast => ?_⟩, hend⟩
    · rintro rfl
      exact hends.1 hc
    · exact hparted last (by rwa [hbefore]) c hc

/-- Apart from spaces, an expression goes on with the operators and with nothing else. -/
theorem continues_expression_eq_false_iff {c : Char} :
    Category.expression.continues c = false ↔ c ∉ ['+', '-', '*', '/', '^'] := by
  constructor
  · intro hc hmem
    simp only [List.mem_cons, List.not_mem_nil, or_false] at hmem
    rcases hmem with rfl | rfl | rfl | rfl | rfl <;> cases hc
  · intro hc
    rw [Bool.eq_false_iff]
    intro hcontinues
    simp only [Category.continues, Bool.or_eq_true, beq_iff_eq, Option.isSome_iff_exists,
      Level.operator?_eq_some_iff] at hcontinues
    refine hc ?_
    rcases hcontinues with (rfl | ⟨op, -, rfl⟩) | ⟨op, -, rfl⟩
    · decide
    · cases op <;> decide
    · cases op <;> decide

/-- What an expression does not go on with, told by the characters on both sides. -/
theorem delimits_expression_iff : Delimits .expression w rest ∧ rest ≠ [] ↔
    ∃ c, rest.head? = some c ∧ c ∉ [' ', '+', '-', '*', '/', '^'] ∧
      ∀ last ∈ w.getLast?, ¬(last.isLower ∧ c.isLower) ∧
        ¬(isNumeralChar last ∧ isNumeralChar c) := by
  have hjoins : ∀ last c, joins last c = false ↔
      ¬(last.isLower ∧ c.isLower) ∧ ¬(isNumeralChar last ∧ isNumeralChar c) := by
    intro last c
    rw [joins, Bool.or_eq_false_iff, Bool.eq_false_iff, Bool.eq_false_iff, ne_eq, ne_eq,
      Bool.and_eq_true, Bool.and_eq_true]
  rcases rest with _ | ⟨c, rest⟩
  · simp
  · simp only [Delimits, List.head?_cons, Option.mem_some_iff, forall_eq', Option.some.injEq,
      exists_eq_left', continues_expression_eq_false_iff, hjoins, List.mem_cons (b := ' '), not_or,
      and_assoc, ne_eq, reduceCtorEq, not_false_eq_true, and_true]

end Calculator.Parser

namespace Calculator

open Calculator.Parser

/-- A text is refused for what is left over from some place on exactly if the text in front of that
place is an expression on its own, and what is left over starts with a character that is neither a
space nor an operator and does not go on with the name or the number in front of it. -/
theorem evaluate_append_eq_trailingInput_iff (limit : Nat) (text left : String) :
    evaluate ⟨limit⟩ (text ++ left) = .error ⟨.trailingInput left, text.utf8ByteSize⟩ ↔
      (∃ v, evaluate ⟨limit⟩ text = .ok v) ∧
        ∃ c, left.toList.head? = some c ∧ c ∉ [' ', '+', '-', '*', '/', '^'] ∧
          ∀ last ∈ text.toList.getLast?, ¬(last.isLower ∧ c.isLower) ∧
            ¬(isNumeralChar last ∧ isNumeralChar c) := by
  have hbytes : text.utf8ByteSize = byteLength text.toList := by
    rw [← utf8ByteSize_ofList, String.ofList_toList]
  rw [← delimits_expression_iff, exists_evaluate_eq_ok_iff, evaluate_eq_error_iff,
    String.toList_append, hbytes]
  constructor
  · rintro ⟨t, hparse⟩
    obtain ⟨w, e, htext, hreads, hnest, hdelim, hne⟩ := hparse.reads_of_trailingInput
    obtain rfl : text.toList = w := List.append_cancel_right htext
    obtain ⟨T, rfl, hspells⟩ := hreads
    rw [T.nest_expr] at hnest
    exact ⟨⟨_, parse_of_spells hspells hnest⟩, hdelim, hne⟩
  · rintro ⟨⟨e, hparse⟩, hdelim, hne⟩
    obtain ⟨hreads, hnest⟩ := reads_of_parse hparse
    have hleft := exists_parses_leftOver hreads hnest hdelim hne
    rwa [String.ofList_toList] at hleft

/-- A name ends in front of a digit, though no operand may follow it there. -/
example : evaluate ⟨1⟩ "pi2" = .error ⟨.trailingInput "2", 2⟩ := by decide +kernel

end Calculator
