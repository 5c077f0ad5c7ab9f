import Calculator.Proofs.Grammar
import Calculator.Proofs.Runs

/-!
# The alphabet

The moves of a cursor pass whatever characters they are told to. The rules of the grammar tell them
to pass the characters of numbers, names, operators and parentheses, and spaces. So wherever a parse
comes to, all characters in front of that place are of one byte each, and a position is a number of
characters as well as a number of bytes. A character that is not of the alphabet is passed by no
parse, and every text that has one is refused in front of it.

The places to which a parse comes are taken from its steps: from the rules that are entered
(`Enters`), and from what each of them passes, character by character, before it stops or starts
another rule (`Visits`).

## Main definitions

* `inAlphabet`: the characters of the calculator.
* `Enters`: the rules that a run enters, and the states in which it does.
* `Visits`: the places to which a parse comes.

## Main results

* `Parses.visits`: no place is left out between the start of a parse and its end.
* `Visits.crosses`: only characters of the alphabet stand in front of a place visited.
* `evaluate_alphabet`: what this means for the positions of failures.
-/

namespace Calculator

/-- The characters that numbers, names, operators and parentheses are written with, and the
space. -/
def inAlphabet (c : Char) : Bool :=
  isNumeralChar c || c.isLower || [' ', '+', '-', '*', '/', '^', '(', ')'].contains c

variable {v w : List Char} {x : Char}

/-- All characters of the alphabet are characters of ASCII. -/
theorem utf8Size_of_inAlphabet (h : inAlphabet x) : x.utf8Size = 1 := by
  rw [Char.utf8Size_eq_one_iff, UInt32.le_iff_toNat_le]
  show x.toNat ≤ 127
  simp only [inAlphabet, isNumeralChar, Bool.or_eq_true, beq_iff_eq, List.contains_iff_mem,
    List.mem_cons, List.not_mem_nil, or_false] at h
  -- Digits and letters are not behind the last of them; the others are taken one by one.
  rcases h with ((hdigit | rfl) | hlower) | rfl | rfl | rfl | rfl | rfl | rfl | rfl | rfl
  · have hle : x.val ≤ ('9' : Char).val := of_decide_eq_true (Bool.and_eq_true_iff.mp hdigit).2
    exact Nat.le_trans (UInt32.le_iff_toNat_le.mp hle) (by decide)
  · decide
  · have hle : x.val ≤ ('z' : Char).val := of_decide_eq_true (Bool.and_eq_true_iff.mp hlower).2
    exact Nat.le_trans (UInt32.le_iff_toNat_le.mp hle) (by decide)
  all_goals decide

/-- A text in the alphabet has as many bytes as characters. -/
theorem byteLength_of_inAlphabet (h : ∀ x ∈ w, inAlphabet x) : byteLength w = w.length := by
  induction w with
  | nil => rfl
  | cons x w ih =>
    have hw := ih fun y hy => h y (List.mem_cons_of_mem _ hy)
    rw [byteLength_cons, utf8Size_of_inAlphabet (h x List.mem_cons_self), hw, List.length_cons,
      Nat.add_comm]

theorem inAlphabet_of_isNumeralChar (x : Char) (h : isNumeralChar x) : inAlphabet x := by
  simp [inAlphabet, h]

theorem inAlphabet_of_isLower (x : Char) (h : x.isLower) : inAlphabet x := by
  simp [inAlphabet, h]

theorem Level.inAlphabet_of_operator? {level : Level} {op : Operator}
    (h : level.operator? x = some op) : inAlphabet x := by
  obtain ⟨-, rfl⟩ := operator?_eq_some_iff.mp h
  cases op <;> decide

theorem Sign.inAlphabet_of_ofChar? {sign : Sign} (h : ofChar? x = some sign) : inAlphabet x := by
  obtain rfl := ofChar?_eq_some_iff.mp h
  cases sign <;> decide

namespace Cursor

variable {c d m : Cursor}

/-- The place `m` is not in front of `c` and not behind `d`. -/
structure Between (c m d : Cursor) : Prop where
  /-- It is reached from `c`. -/
  front : ∃ v, c.Passes v m
  /-- From it, `d` is reached. -/
  back : ∃ w, m.Passes w d

/-- Only characters of the alphabet lie between the two places. -/
def Crosses (c d : Cursor) : Prop :=
  ∃ w, c.Passes w d ∧ ∀ x ∈ w, inAlphabet x

theorem Passes.between_right (h : c.Passes w d) : c.Between d d :=
  ⟨⟨w, h⟩, [], .refl d⟩

/-- A place that lies behind `c` and in front of `e` lies on one side of each place between
them. -/
theorem Between.split {e : Cursor} (h : c.Between m e) (hv : c.Passes v d) (hw : d.Passes w e) :
    c.Between m d ∨ d.Between m e := by
  obtain ⟨⟨x, hx⟩, y, hy⟩ := h
  -- Both places cut the text between `c` and `e` in two.
  have hcut : v ++ w = x ++ y := (hv.trans hw).eq_of_passes (hx.trans hy)
  rcases List.append_eq_append_iff.mp hcut with ⟨z, rfl, rfl⟩ | ⟨z, rfl, rfl⟩
  · refine Or.inr ⟨⟨z, ?_, ?_⟩, y, hy⟩
    · rw [hw.rest_eq, hy.rest_eq, List.append_assoc]
    · rw [hx.passed_eq, hv.passed_eq, List.reverse_append, List.append_assoc]
  · refine Or.inl ⟨⟨x, hx⟩, z, ?_, ?_⟩
    · rw [hy.rest_eq, hw.rest_eq, List.append_assoc]
    · rw [hv.passed_eq, hx.passed_eq, List.reverse_append, List.append_assoc]

namespace Crosses

theorem refl (c : Cursor) : c.Crosses c :=
  ⟨[], .refl c, fun _ hx => absurd hx List.not_mem_nil⟩

theorem trans {e : Cursor} (h : c.Crosses d) (h' : d.Crosses e) : c.Crosses e := by
  obtain ⟨v, hv, hvall⟩ := h
  obtain ⟨w, hw, hwall⟩ := h'
  exact ⟨v ++ w, hv.trans hw, List.forall_mem_append.mpr ⟨hvall, hwall⟩⟩

/-- Up to a place in between, no other characters are passed. -/
theorem of_between (h : c.Crosses d) (hm : c.Between m d) : c.Crosses m := by
  obtain ⟨u, hu, hall⟩ := h
  obtain ⟨⟨v, hv⟩, w, hw⟩ := hm
  obtain rfl := hu.eq_of_passes (hv.trans hw)
  exact ⟨v, hv, (List.forall_mem_append.mp hall).1⟩

/-- In front of a place that is reached from the start of a text, there is nothing but characters
of the alphabet. -/
theorem passed {text : List Char} (h : (ofText text).Crosses d) :
    d.source = text ∧ ∀ x ∈ d.passed, inAlphabet x := by
  obtain ⟨w, hw, hall⟩ := h
  have hpassed : d.passed = w.reverse := by
    rw [hw.passed_eq]
    exact List.append_nil _
  refine ⟨hw.source_eq.trans (source_ofText text), fun x hx => hall x ?_⟩
  rwa [hpassed, List.mem_reverse] at hx

end Crosses

end Cursor

namespace Parser

variable {rule rule₀ r : Rule} {s s₀ s₁ t u : State} {next : Expr → Rule} {reply : Reply Expr}
  {f : Failure} {limit : Nat} {text : List Char} {c : Cursor}

/-! ## Where a parse comes to -/

/-- A step of a rule leads from one state to another: to where the rule stops, or to where it starts
another one. -/
inductive Steps : Rule → State → State → Prop
  | stops {rule : Rule} {s : State} {reply : Reply Expr} (hstop : Stops rule s reply) :
      Steps rule s reply.state
  | starts {rule r : Rule} {s s₁ : State} {next : Expr → Rule}
      (hstart : Starts rule s r s₁ next) : Steps rule s s₁

/-- The rules that are entered in the run of `rule₀` from `s₀`, and the states in which they are
entered. -/
inductive Enters (rule₀ : Rule) (s₀ : State) : Rule → State → Prop
  | first : Enters rule₀ s₀ rule₀ s₀
  -- A rule that has been entered starts this one.
  | start {rule r : Rule} {s s₁ : State} {next : Expr → Rule} (henter : Enters rule₀ s₀ rule s)
      (hstart : Starts rule s r s₁ next) : Enters rule₀ s₀ r s₁
  -- A rule that has been entered goes on with this one, at its own depth.
  | next {rule r : Rule} {s s₁ t : State} {next : Expr → Rule} {e : Expr}
      (henter : Enters rule₀ s₀ rule s) (hstart : Starts rule s r s₁ next)
      (hrun : Runs r s₁ ⟨.ok e, t⟩) : Enters rule₀ s₀ (next e) (t.atDepth s.depth)

/-- The places to which the parse of a text comes: those that are passed in the step of a rule that
has been entered, and those that are passed when the spaces behind the expression are skipped. -/
inductive Visits (limit : Nat) (text : List Char) : Cursor → Prop
  | step {rule : Rule} {s t : State} {c : Cursor}
      (henter : Enters (.chain .sum) (.start limit text) rule s) (hstep : Steps rule s t)
      (hc : s.cursor.Between c t.cursor) : Visits limit text c
  | skip {e : Expr} {s t : State} {g : List Char} {c : Cursor}
      (hrun : Runs (.chain .sum) (.start limit text) ⟨.ok e, s⟩) (hskip : s.Skips g t)
      (hc : s.cursor.Between c t.cursor) : Visits limit text c

/-- Every place between the start of a run and its end is passed in one of its steps. -/
theorem Runs.exists_steps (h : Runs rule s reply) (henter : Enters rule₀ s₀ rule s)
    (hc : s.cursor.Between c reply.state.cursor) :
    ∃ r u t, Enters rule₀ s₀ r u ∧ Steps r u t ∧ u.cursor.Between c t.cursor := by
  -- The place lies in the first step of the run, or in one of the runs that follow it.
  induction h with
  | @stop rule s reply hstop => exact ⟨rule, s, reply.state, henter, .stops hstop, hc⟩
  | fail hstart hrun ih =>
    obtain ⟨v, hv⟩ := hstart.reaches
    obtain ⟨w, hw⟩ := hrun.reaches
    rcases hc.split hv.cursor hw.cursor with hstep | hrest
    · exact ⟨_, _, _, henter, .starts hstart, hstep⟩
    · exact ih (henter.start hstart) hrest
  | next hstart hrun hnext ih ihnext =>
    obtain ⟨v, hv⟩ := hstart.reaches
    obtain ⟨w, hw⟩ := hrun.reaches
    obtain ⟨x, hx⟩ := hnext.reaches
    rcases hc.split hv.cursor (hw.cursor.trans hx.cursor) with hstep | hrest
    · exact ⟨_, _, _, henter, .starts hstart, hstep⟩
    rcases hrest.split hw.cursor hx.cursor with hrest | hrest
    · exact ih (henter.start hstart) hrest
    · exact ihnext (henter.next hstart hrun) hrest

/-- A parse comes to every place between its start and its end. -/
theorem Parses.visits (h : Parses limit text reply)
    (hc : (Cursor.ofText text).Between c reply.state.cursor) : Visits limit text c := by
  cases h with
  | ok hrun hskip | trailing hrun hskip =>
    obtain ⟨w, hw⟩ := hrun.reaches
    rcases hc.split hw.cursor hskip.passes.cursor with hc | hc
    · obtain ⟨r, u, t, henter, hstep, hc⟩ := hrun.exists_steps .first hc
      exact .step henter hstep hc
    · exact .skip hrun hskip hc
  | fail hrun =>
    obtain ⟨r, u, t, henter, hstep, hc⟩ := hrun.exists_steps .first hc
    exact .step henter hstep hc

/-- The place where a parse ends is one to which it comes. -/
theorem Parses.visits_end (h : Parses limit text reply) :
    Visits limit text reply.state.cursor := by
  obtain ⟨w, hw⟩ := h.reaches
  exact h.visits hw.cursor.between_right

/-- A step that fails reports the place where it starts, or the place to which it comes. -/
theorem Stops.position_eq (h : Stops rule s ⟨.error f, t⟩) :
    f.position = s.cursor.position ∨ f.position = t.cursor.position := by
  cases h with
  | tooDeep | unexpectedEnd | unexpectedCharacter | malformedNumeral | unknownName =>
    exact Or.inl rfl
  | unclosed => exact Or.inr rfl

/-- A parse that fails reports a place to which it has come. -/
theorem Parses.exists_visits (h : Parses limit text ⟨.error f, t⟩) :
    ∃ c, Visits limit text c ∧ c.position = f.position := by
  cases h with
  | @fail _ t hrun =>
    obtain ⟨r, u, v, w, hstop, -, hw, rfl⟩ :=
      hrun.exists_stops_of_invariant (P := fun _ _ => True) (fun _ _ => trivial)
        (fun _ _ _ => trivial) trivial
    obtain ⟨x, hx⟩ := hstop.reaches
    have hparse : Parses limit text ⟨.error f, v.atDepth _⟩ := .fail hrun
    rcases hstop.position_eq with hposition | hposition
    · exact ⟨u.cursor, hparse.visits ⟨⟨w, hw.cursor⟩, x, hx.cursor⟩, hposition.symm⟩
    · exact ⟨v.cursor, hparse.visits_end, hposition.symm⟩
  | trailing hrun hskip hend => exact ⟨_, (Parses.trailing hrun hskip hend).visits_end, rfl⟩

/-! ## Characters that are passed -/

theorem Stops.crosses (h : Stops rule s reply) : s.cursor.Crosses reply.state.cursor := by
  obtain ⟨w, hw, hall⟩ := h.forall_passed (P := (inAlphabet ·)) (by decide)
    inAlphabet_of_isNumeralChar inAlphabet_of_isLower (by decide)
  exact ⟨w, hw.cursor, hall⟩

theorem Starts.crosses (h : Starts rule s r s₁ next) : s.cursor.Crosses s₁.cursor := by
  obtain ⟨w, hw, hall⟩ := h.forall_passed (P := (inAlphabet ·)) (by decide)
    Level.inAlphabet_of_operator? Sign.inAlphabet_of_ofChar? inAlphabet_of_isLower (by decide)
    fun _ _ => by decide
  exact ⟨w, hw.cursor, hall⟩

theorem Steps.crosses (h : Steps rule s t) : s.cursor.Crosses t.cursor := by
  cases h with
  | stops hstop => exact hstop.crosses
  | starts hstart => exact hstart.crosses

theorem Runs.crosses (h : Runs rule s reply) : s.cursor.Crosses reply.state.cursor := by
  induction h with
  | stop hstop => exact hstop.crosses
  | fail hstart _ ih => exact hstart.crosses.trans ih
  | next hstart _ _ ih ihnext => exact (hstart.crosses.trans ih).trans ihnext

theorem Enters.crosses (h : Enters rule₀ s₀ rule s) : s₀.cursor.Crosses s.cursor := by
  induction h with
  | first => exact .refl _
  | start _ hstart ih => exact ih.trans hstart.crosses
  | next _ hstart hrun ih => exact (ih.trans hstart.crosses).trans hrun.crosses

/-- Wherever a parse comes to, it has passed characters of the alphabet only. -/
theorem Visits.crosses (h : Visits limit text c) : (Cursor.ofText text).Crosses c := by
  cases h with
  | step henter hstep hc => exact henter.crosses.trans (hstep.crosses.of_between hc)
  | skip hrun hskip hc =>
    have hgap : ∀ x ∈ _, inAlphabet x := hskip.gap.forall_mem (by decide)
    have hspaces := Cursor.Crosses.of_between ⟨_, hskip.passes.cursor, hgap⟩ hc
    exact hrun.crosses.trans hspaces

/-- No parse passes a character that is not of the alphabet. -/
theorem Visits.not_passed {before after : List Char} {x : Char}
    (h : Visits limit (before ++ x :: after) c) (hx : inAlphabet x = false) :
    c.rest ≠ [] ∧ c.position ≤ before.length := by
  obtain ⟨hsource, hall⟩ := h.crosses.passed
  have hx : x ∉ c.passed.reverse := by
    intro hmem
    rw [hall x (List.mem_reverse.mp hmem)] at hx
    cases hx
  -- So the character is still to come.
  have hrest : x :: after <:+ c.rest := suffix_of_not_mem hsource hx
  have hlength := congrArg List.length hsource
  rw [Cursor.source, List.length_append, List.length_append, List.length_reverse] at hlength
  rw [Cursor.position, byteLength_of_inAlphabet hall]
  refine ⟨fun hnil => ?_, ?_⟩
  · rw [hnil] at hrest
    cases List.suffix_nil.mp hrest
  · have hle := hrest.length_le
    omega

end Parser

open Calculator.Parser

/-- A parse passes characters of the alphabet only, whatever text it is given. So the position of a
failure tells the number of characters in front of it as well as the number of bytes; and a text
that has a character outside of the alphabet is refused, in front of that character. In front of the
first one of these there are as many bytes as characters. -/
theorem evaluate_alphabet (limit : Nat) (text : String) :
    (∀ c, Visits limit text.toList c →
      c.source = text.toList ∧ ∀ x ∈ c.passed, inAlphabet x) ∧
    (∀ f, evaluate ⟨limit⟩ text = .error f →
      ∃ before after, text = before ++ after ∧
        before.utf8ByteSize = f.position ∧ before.length = f.position) ∧
    (∀ before after x, text = before ++ String.singleton x ++ after → inAlphabet x = false →
      ∃ f, evaluate ⟨limit⟩ text = .error f ∧ f.position ≤ before.length) := by
  refine ⟨fun c hc => hc.crosses.passed, fun f hf => ?_, ?_⟩
  · -- The failure is reported at a place that was visited, and that place cuts the text.
    obtain ⟨t, hparse⟩ := evaluate_eq_error_iff.mp hf
    obtain ⟨c, hc, hposition⟩ := hparse.exists_visits
    obtain ⟨hsource, hall⟩ := hc.crosses.passed
    have hbytes : byteLength c.passed = f.position := hposition
    refine ⟨String.ofList c.passed.reverse, String.ofList c.rest, ?_, ?_, ?_⟩
    · rw [← String.ofList_append, ← String.ofList_toList (s := text), ← hsource]
      rfl
    · rw [utf8ByteSize_ofList, byteLength_reverse, hbytes]
    · rw [String.length_ofList, List.length_reverse, ← byteLength_of_inAlphabet hall, hbytes]
  · rintro before after x rfl hx
    have hlist : (before ++ String.singleton x ++ after).toList =
        before.toList ++ x :: after.toList := by simp
    rcases heval : evaluate ⟨limit⟩ (before ++ String.singleton x ++ after) with f | v
    · obtain ⟨t, hparse⟩ := evaluate_eq_error_iff.mp heval
      obtain ⟨c, hc, hposition⟩ := hparse.exists_visits
      rw [hlist] at hc
      refine ⟨f, rfl, ?_⟩
      rw [← hposition, ← String.length_toList]
      exact (hc.not_passed hx).2
    · -- A parse that succeeds would have passed the whole text.
      obtain ⟨e, t, hparse, -⟩ := evaluate_eq_ok_iff.mp heval
      have hend := hparse.visits_end
      rw [hlist] at hend hparse
      cases hparse with
      | ok _ _ hrest => exact absurd hrest (hend.not_passed hx).1

/-- A Greek letter takes two bytes, but nothing behind it is ever reported. -/
theorem evaluate_alphabet_greek :
    inAlphabet 'π' = false ∧ ∃ f, evaluate ⟨1⟩ "2π+x" = .error f ∧ f.position ≤ 1 := by
  have hforeign : inAlphabet 'π' = false := by decide
  exact ⟨hforeign, (evaluate_alphabet 1 "2π+x").2.2 "2" "+x" 'π' (by decide) hforeign⟩

end Calculator
