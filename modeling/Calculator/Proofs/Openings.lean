import Calculator.Proofs.Limits
import Calculator.Proofs.Soundness

/-!
# Where factors are opened

The places of a text at which too deep a nesting can be reported, told from the text alone: its
start, and the places behind an opening parenthesis, a sign, a caret or the name of a function. Such
a place is never behind an operator that joins two operands, because the operand to its left has
been read at the same depth.

## Main definitions

* `OperandDue`: the texts behind which an operand comes next.
* `Opening`: the places at which a factor is opened as the first one, or within another one.

## Main results

* `Runs.opening`: too deep a nesting is reported at openings only.
-/

namespace Calculator

/-- An operand comes next behind this text. -/
inductive OperandDue : List Char → Prop
  | start : OperandDue []
  -- A symbol that an operand follows. A closing parenthesis is none.
  | symbol {w : List Char} {c : Char} (hc : c ∈ ['(', '^', '+', '-', '*', '/']) :
      OperandDue (w ++ [c])
  -- The name of a function, which no letter stands in front of.
  | name {w : List Char} (f : UnaryFunction) (hw : ∀ c ∈ w.getLast?, c.isLower = false) :
      OperandDue (w ++ (Builtin.function f).name.toList)
  | space {w : List Char} (hw : OperandDue w) : OperandDue (w ++ [' '])

/-- A factor is opened between the texts `before` and `after`: the first one, or one within another
one. A `+` or `-` is a sign if an operand is due where it stands, and a name reaches from letter to
letter. -/
inductive Opening : List Char → List Char → Prop
  | start {after : List Char} : Opening [] after
  | group {before after : List Char} : Opening (before ++ ['(']) after
  | power {before after : List Char} : Opening (before ++ ['^']) after
  | sign {before after : List Char} (sign : Sign) (hbefore : OperandDue before) :
      Opening (before ++ [sign.symbol]) after
  | call {before after : List Char} (f : UnaryFunction)
      (hbefore : ∀ c ∈ before.getLast?, c.isLower = false)
      (hafter : ∀ c ∈ after.head?, c.isLower = false) :
      Opening (before ++ (Builtin.function f).name.toList) after

theorem OperandDue.append_gap {w g : List Char} (h : OperandDue w) (hg : Gap g) :
    OperandDue (w ++ g) := by
  induction g generalizing w with
  | nil => rwa [List.append_nil]
  | cons c g ih =>
    obtain rfl : c = ' ' := hg c List.mem_cons_self
    have h := ih h.space fun d hd => hg d (List.mem_cons_of_mem _ hd)
    rwa [List.append_assoc, List.singleton_append] at h

namespace Parser

variable {rule r : Rule} {s s₁ t : State} {next : Expr → Rule} {e : Expr} {f : Failure}
  {v w g run : List Char} {c : Char}

/-! ## Where operands are due -/

/-- An operand comes next, and a name that comes next does not start further in front. -/
structure State.Due (s : State) : Prop where
  /-- An operand comes next. -/
  due : OperandDue s.cursor.before
  /-- No name goes on here. -/
  fresh : ∀ last ∈ s.cursor.before.getLast?, ∀ next ∈ s.peek,
    last.isLower = true → next.isLower = false

namespace State

/-- An operand is due at the start of a text. -/
theorem due_start (limit : Nat) (text : List Char) : (State.start limit text).Due :=
  ⟨.start, by rintro last ⟨⟩⟩

/-- An operand is due behind a symbol that an operand follows. -/
theorem Passes.due_of_symbol (h : s.Passes (g ++ [c]) t)
    (hc : c ∈ ['(', '^', '+', '-', '*', '/']) : t.Due := by
  have hbefore := h.cursor.before_eq
  rw [← List.append_assoc] at hbefore
  refine ⟨?_, fun last hlast next _ hlower => ?_⟩
  · rw [hbefore]
    exact .symbol hc
  · rw [hbefore, List.getLast?_concat] at hlast
    obtain rfl : c = last := by simpa using hlast
    have hsymbol : c.isLower = false := by
      simp only [List.mem_cons, List.not_mem_nil, or_false] at hc
      rcases hc with rfl | rfl | rfl | rfl | rfl | rfl <;> decide
    rw [hsymbol] at hlower
    cases hlower

/-- An operand that is due is due behind spaces too. -/
theorem Due.skips (h : s.Due) (hskip : s.Skips g t) : t.Due := by
  have hbefore := hskip.passes.cursor.before_eq
  refine ⟨?_, fun last hlast next hnext hlower => ?_⟩
  · rw [hbefore]
    exact h.due.append_gap hskip.gap
  -- The last character in front is the one that was, or a space.
  · rcases List.eq_nil_or_concat g with rfl | ⟨g, c, rfl⟩
    · obtain rfl := hskip.passes.unique (.refl s)
      exact h.fresh last hlast next hnext hlower
    · obtain rfl : c = ' ' := hskip.gap c (by simp)
      rw [hbefore, List.concat_eq_append, ← List.append_assoc, List.getLast?_concat] at hlast
      obtain rfl : ' ' = last := by simpa using hlast
      exact absurd hlower (by decide)

/-- Where an operand is due, a name that comes next is a whole name. -/
theorem Due.getLast_before (h : s.Due) (hscan : s.Scans Char.isLower run t) (hrun : run ≠ []) :
    ∀ last ∈ s.cursor.before.getLast?, last.isLower = false := by
  intro last hlast
  obtain ⟨next, hpeek, hnext⟩ := hscan.peek_of_ne_nil hrun
  rcases hlower : last.isLower with _ | _
  · rfl
  · rw [h.fresh last hlast next hpeek hlower] at hnext
    cases hnext

end State

/-- What holds of a state in which a rule is started: an operand is due there, or it is behind an
operand that has been read, so that there may be factors at its depth. -/
def Rule.Ready : Rule → State → Prop
  | .chain _, s => s.Due
  -- The operand in front has opened a factor at this depth.
  | .more _ _, s => s.depth < s.limit
  | .factor, s => s.Due
  | .openFactor, s => s.Due
  | .openPrimary, s => s.Due
  | _, _ => True

theorem Rule.ready_operand (level : Level) (s : State) : (Rule.operand level).Ready s ↔ s.Due := by
  cases level <;> rfl

theorem Starts.ready (h : Starts rule s r s₁ next) (hs : rule.Ready s) : r.Ready s₁ := by
  cases h with
  | chain => exact (Rule.ready_operand _ _).mpr hs
  | @more level _ _ _ _ _ op _ hpass hop =>
    obtain ⟨-, rfl⟩ := Level.operator?_eq_some_iff.mp hop
    have hsymbol : op.symbol ∈ ['(', '^', '+', '-', '*', '/'] := by
      cases op <;> simp [Operator.symbol]
    exact (Rule.ready_operand _ _).mpr (hpass.due_of_symbol hsymbol)
  | factor => exact ⟨hs.due, hs.fresh⟩
  | @sign _ _ _ _ sign _ hpass hsign =>
    obtain rfl := Sign.ofChar?_eq_some_iff.mp hsign
    exact hpass.due_of_symbol (by cases sign <;> simp [Sign.symbol])
  | primary hskip => exact hs.skips hskip
  | power _ hpass => exact hpass.due_of_symbol (by simp)
  | group hpass => exact State.Passes.due_of_symbol (g := []) hpass (by simp)
  | @call _ u run f hscan hrun hf =>
    obtain rfl := Builtin.lookup?_ofList_eq_some_iff.mp hf
    have hbefore : u.cursor.before = _ := hscan.passes.cursor.before_eq
    have hlast := hs.getLast_before hscan hrun
    refine ⟨?_, fun last _ next hnext _ => hscan.stop next hnext⟩
    show OperandDue u.cursor.before
    rw [hbefore]
    exact .name f hlast

/-- Behind an operand that has been read, there may be factors at its depth. -/
theorem Starts.ready_next (h : Starts rule s r s₁ next) (hs : rule.Ready s)
    (hdepth : s.depth ≤ s.limit) (hrun : Runs r s₁ ⟨.ok e, t⟩) :
    (next e).Ready (t.atDepth s.depth) := by
  have hlimit := h.limit_next hrun
  cases h with
  | chain =>
    have hfits := (Rule.fits_operand _ _ _ _).mp (hrun.fits hdepth)
    have hpos := e.nest_pos
    show s.depth < (t.atDepth s.depth).limit
    rw [hlimit]
    omega
  | more =>
    show s.depth < (t.atDepth s.depth).limit
    rw [hlimit]
    exact hs
  | factor | sign | primary | power | group | call => trivial

/-! ## Where too deep a nesting is reported -/

/-- A rule that starts one in which a factor is opened at once stands where it was started itself,
or at an opening. -/
theorem Starts.opening (h : Starts rule s r s₁ next) (hs : rule.Ready s) (hr : 3 ≤ r.rank)
    (hdepth : s₁.limit ≤ s₁.depth) :
    (3 ≤ rule.rank ∧ s.limit ≤ s.depth ∧ s₁.cursor = s.cursor) ∨
      Opening s₁.cursor.before s₁.cursor.rest := by
  cases h with
  | @chain level =>
    refine Or.inl ⟨?_, hdepth, rfl⟩
    cases level <;> simp [Rule.rank]
  -- Behind an operator a factor may be opened, because one was in front of it.
  | more _ hpass =>
    rw [hpass.limit_eq, hpass.depth_eq] at hdepth
    exact absurd hs (Nat.not_lt.mpr hdepth)
  | factor => simp [Rule.rank] at hr
  | primary => simp [Rule.rank] at hr
  | @sign _ _ g _ sign hgap hpass hsign =>
    obtain rfl := Sign.ofChar?_eq_some_iff.mp hsign
    refine Or.inr ?_
    rw [hpass.cursor.before_eq, ← List.append_assoc]
    exact .sign sign (hs.due.append_gap hgap)
  | power _ hpass =>
    refine Or.inr ?_
    rw [hpass.cursor.before_eq, ← List.append_assoc]
    exact .power
  | group hpass =>
    refine Or.inr ?_
    rw [hpass.cursor.before_eq]
    exact .group
  | @call _ u _ f hscan hrun hf =>
    obtain rfl := Builtin.lookup?_ofList_eq_some_iff.mp hf
    refine Or.inr ?_
    show Opening u.cursor.before u.cursor.rest
    rw [hscan.passes.cursor.before_eq]
    exact .call f (hs.getLast_before hscan hrun) hscan.stop

/-- A run that opens too many factors stops at an opening, or, if its first factor may not be
opened, where it was started. The rules that open a factor before they pass anything are those of
rank three and more. -/
theorem Runs.opening (h : Runs rule s ⟨.error f, t⟩) (hdeep : f.cause.kind = .resource)
    (hs : rule.Ready s) (hdepth : s.depth ≤ s.limit) :
    (3 ≤ rule.rank ∧ s.limit ≤ s.depth ∧ t.cursor = s.cursor) ∨
      Opening t.cursor.before t.cursor.rest := by
  induction h using Runs.error_induction with
  | stop hstop =>
    obtain ⟨rfl, hlimit, rfl, -⟩ := hstop.cases_of_tooDeep hdeep
    exact Or.inl ⟨by simp [Rule.rank], hlimit, rfl⟩
  | fail hstart _ ih =>
    rcases ih (hstart.ready hs) (hstart.depth_le hdepth) with ⟨hr, hle, hcursor⟩ | h
    · have h := hstart.opening hs hr hle
      rw [← hcursor] at h
      exact h
    · exact Or.inr h
  | next hstart hrun _ ih =>
    have hlimit := hstart.limit_next hrun
    have hready := hstart.ready_next hs hdepth hrun
    rcases ih hready (by rwa [hlimit]) with ⟨hrank, -⟩ | h
    -- What goes on behind an operand opens no factor before it has passed a character.
    · rw [hstart.rank_next] at hrank
      omega
    · exact Or.inr h

end Parser

end Calculator
