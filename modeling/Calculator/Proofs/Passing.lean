import Calculator.Evaluation

/-!
# Passing characters

What lies between two cursors of one text, and what the moves of a parser state pass. A move is
described here by the characters it passes and by the character in front of which it stops, instead
of by the run that it computes; the lemmas on `State.Scans` and `State.Skips` say that both
descriptions agree.

## Main definitions

* `Gap`: a text of spaces only.
* `Cursor.before`: the text in front of a cursor.
* `Cursor.Passes`, `State.Passes`: some text comes next, and has been passed.
* `State.Reaches`: the same, where names may have been looked up.
* `State.Scans`, `State.Skips`: the text passed is the longest run of a class of characters, or of
  spaces.

## Main results

* `State.scans_run`, `State.Scans.eq`: the moves over runs, described in both ways.
* `utf8ByteSize_ofList`: positions count the bytes of the text in front of them.
-/

namespace Calculator

/-- A text of spaces only, possibly empty. -/
def Gap (w : List Char) : Prop :=
  ∀ c ∈ w, c = ' '

/-- The number of characters that are not spaces. -/
def solidCount (w : List Char) : Nat :=
  w.countP (· != ' ')

namespace Gap

theorem nil : Gap [] := by
  simp [Gap]

theorem append {v w : List Char} (hv : Gap v) (hw : Gap w) : Gap (v ++ w) := by
  intro c hc
  rcases List.mem_append.mp hc with h | h
  · exact hv c h
  · exact hw c h

/-- What holds of the space holds of all characters of a gap. -/
theorem forall_mem {P : Char → Prop} {w : List Char} (hw : Gap w) (hspace : P ' ') :
    ∀ c ∈ w, P c := by
  intro c hc
  rw [hw c hc]
  exact hspace

/-- Only spaces are in a text of spaces. -/
theorem not_mem {w : List Char} {c : Char} (hw : Gap w) (hc : c ≠ ' ') : c ∉ w :=
  fun hmem => hc (hw c hmem)

theorem forall_mem_concat {P : Char → Prop} {w : List Char} {c : Char} (hw : Gap w)
    (hspace : P ' ') (hc : P c) : ∀ x ∈ w ++ [c], P x :=
  List.forall_mem_append.mpr ⟨hw.forall_mem hspace, List.forall_mem_singleton.mpr hc⟩

end Gap

@[simp]
theorem solidCount_nil : solidCount [] = 0 := rfl

@[simp]
theorem solidCount_append (v w : List Char) : solidCount (v ++ w) = solidCount v + solidCount w :=
  List.countP_append

@[simp]
theorem solidCount_cons (c : Char) (w : List Char) :
    solidCount (c :: w) = solidCount w + if c = ' ' then 0 else 1 := by
  by_cases h : c = ' ' <;> simp [solidCount, h]

@[simp]
theorem byteLength_append (v w : List Char) :
    byteLength (v ++ w) = byteLength v + byteLength w := by
  induction v with
  | nil => simp
  | cons c v ih => rw [List.cons_append, byteLength_cons, ih, byteLength_cons, Nat.add_assoc]

@[simp]
theorem byteLength_reverse (w : List Char) : byteLength w.reverse = byteLength w := by
  induction w with
  | nil => rfl
  | cons c w ih => simp [ih, Nat.add_comm]

/-- A text without bytes has no characters. -/
theorem eq_nil_of_byteLength_eq_zero {w : List Char} (h : byteLength w = 0) : w = [] := by
  rcases w with _ | ⟨c, w⟩
  · rfl
  · have hc : 0 < c.utf8Size := c.utf8Size_pos
    rw [byteLength_cons] at h
    omega

/-- A text is cut in two by the number of bytes in front. -/
theorem append_inj_of_byteLength {v v' w w' : List Char} (h : v ++ v' = w ++ w')
    (hlength : byteLength v = byteLength w) : v = w ∧ v' = w' := by
  induction v generalizing w with
  | nil =>
    obtain rfl : w = [] := eq_nil_of_byteLength_eq_zero hlength.symm
    exact ⟨rfl, h⟩
  | cons c v ih =>
    rcases w with _ | ⟨d, w⟩
    · cases eq_nil_of_byteLength_eq_zero hlength
    · obtain ⟨rfl, htail⟩ := List.cons.inj h
      rw [byteLength_cons, byteLength_cons] at hlength
      obtain ⟨rfl, rfl⟩ := ih htail (Nat.add_left_cancel hlength)
      exact ⟨rfl, rfl⟩

/-- A text that comes to its end before the first `c` of another text ends in front of that `c`. -/
theorem suffix_of_not_mem {v w x y : List Char} {c : Char} (h : v ++ x = w ++ c :: y)
    (hv : c ∉ v) : c :: y <:+ x := by
  rcases List.append_eq_append_iff.mp h with ⟨z, -, hx⟩ | ⟨z, hvz, hz⟩
  · exact ⟨z, hx.symm⟩
  · rcases z with _ | ⟨a, z⟩
    · exact ⟨[], hz⟩
    · obtain ⟨rfl, -⟩ := List.cons.inj hz
      exact absurd (by simp [hvz]) hv

/-- The bytes of a string are those of its characters. -/
@[simp]
theorem utf8ByteSize_ofList (w : List Char) : (String.ofList w).utf8ByteSize = byteLength w := by
  induction w with
  | nil => rfl
  | cons c w ih =>
    rw [String.ofList_cons, String.utf8ByteSize_append, String.utf8ByteSize_singleton, ih]
    simp [byteLength]

namespace Cursor

/-- The text in front of a cursor. -/
def before (c : Cursor) : List Char :=
  c.passed.reverse

theorem position_eq_byteLength_before (c : Cursor) : c.position = byteLength c.before := by
  rw [before, byteLength_reverse, position]

/-- The text `w` comes next at `c`, and `d` is the place behind it. -/
structure Passes (c : Cursor) (w : List Char) (d : Cursor) : Prop where
  /-- The text comes next. -/
  rest_eq : c.rest = w ++ d.rest
  /-- The text has been passed. -/
  passed_eq : d.passed = w.reverse ++ c.passed

namespace Passes

variable {c d e : Cursor} {v w : List Char}

theorem refl (c : Cursor) : c.Passes [] c :=
  ⟨rfl, rfl⟩

theorem trans (hv : c.Passes v d) (hw : d.Passes w e) : c.Passes (v ++ w) e := by
  constructor
  · rw [hv.rest_eq, hw.rest_eq, List.append_assoc]
  · rw [hw.passed_eq, hv.passed_eq, List.reverse_append, List.append_assoc]

theorem before_eq (h : c.Passes w d) : d.before = c.before ++ w := by
  rw [before, h.passed_eq, List.reverse_append, List.reverse_reverse, before]

/-- Both places are in the same text. -/
theorem source_eq (h : c.Passes w d) : d.source = c.source := by
  rw [source, source, h.passed_eq, h.rest_eq, List.reverse_append, List.reverse_reverse,
    List.append_assoc]

theorem position_eq (h : c.Passes w d) : d.position = c.position + byteLength w := by
  rw [position, h.passed_eq, byteLength_append, byteLength_reverse, position]
  omega

/-- A text that is passed ends at one place only. -/
theorem unique (hd : c.Passes w d) (he : c.Passes w e) : d = e := by
  have hrest : d.rest = e.rest := List.append_cancel_left (hd.rest_eq.symm.trans he.rest_eq)
  have hpassed : d.passed = e.passed := hd.passed_eq.trans he.passed_eq.symm
  cases d
  cases e
  simp_all

/-- Between two places of one text lies one text only. -/
theorem eq_of_passes (hv : c.Passes v d) (hw : c.Passes w d) : v = w :=
  List.append_cancel_right (hv.rest_eq.symm.trans hw.rest_eq)

end Passes

theorem passes_takeWhile (accept : Char → Bool) (c : Cursor) :
    c.Passes (c.takeWhile accept).1 (c.takeWhile accept).2 :=
  ⟨List.takeWhile_append_dropWhile.symm, rfl⟩

theorem passes_advance {c : Cursor} {next : Char} (h : c.peek = some next) :
    c.Passes [next] c.advance := by
  obtain ⟨passed, _ | ⟨head, rest⟩⟩ := c
  · simp [peek] at h
  · obtain rfl : head = next := by simpa [peek] using h
    exact ⟨rfl, rfl⟩

end Cursor

namespace Parser.State

/-- The text `w` comes next in `s`, and `t` is `s` once it has been passed. -/
structure Passes (s : State) (w : List Char) (t : State) : Prop where
  /-- The cursor passes the text. -/
  cursor : s.cursor.Passes w t.cursor
  /-- Nothing but the cursor changes. -/
  eq : t = { s with cursor := t.cursor }

/-- The text `w` comes next in `s`, and in `t` it has been passed with as many factors open. Names
may have been looked up in between. -/
structure Reaches (s : State) (w : List Char) (t : State) : Prop where
  /-- The cursor passes the text. -/
  cursor : s.cursor.Passes w t.cursor
  /-- As many factors are open. -/
  depth_eq : t.depth = s.depth
  /-- As many factors may be open. -/
  limit_eq : t.limit = s.limit

/-- The longest run of characters that `accept` holds of comes next in `s`, and `t` is `s` once it
has been passed. -/
structure Scans (accept : Char → Bool) (s : State) (run : List Char) (t : State) : Prop where
  /-- The run is passed. -/
  passes : s.Passes run t
  /-- The run holds nothing else. -/
  all : ∀ c ∈ run, accept c = true
  /-- The run cannot be continued. -/
  stop : ∀ c ∈ t.peek, accept c = false

/-- The longest run of spaces comes next in `s`, and `t` is `s` once it has been passed. -/
structure Skips (s : State) (g : List Char) (t : State) : Prop where
  /-- The run is passed. -/
  passes : s.Passes g t
  /-- The run holds spaces only. -/
  gap : Gap g
  /-- The run cannot be continued. -/
  stop : t.peek ≠ some ' '

@[simp]
theorem depth_enter (s : State) : s.enter.depth = s.depth + 1 := rfl

@[simp]
theorem limit_enter (s : State) : s.enter.limit = s.limit := rfl

variable {s t u : State} {v w g : List Char} {next : Char}

namespace Passes

theorem refl (s : State) : s.Passes [] s :=
  ⟨.refl _, rfl⟩

theorem trans (hv : s.Passes v t) (hw : t.Passes w u) : s.Passes (v ++ w) u := by
  refine ⟨hv.cursor.trans hw.cursor, ?_⟩
  rw [hw.eq, hv.eq]

theorem unique (ht : s.Passes w t) (hu : s.Passes w u) : t = u := by
  rw [ht.eq, hu.eq, ht.cursor.unique hu.cursor]

theorem depth_eq (h : s.Passes w t) : t.depth = s.depth := by
  rw [h.eq]

theorem limit_eq (h : s.Passes w t) : t.limit = s.limit := by
  rw [h.eq]

/-- A character that is passed comes next. -/
theorem peek_eq (h : s.Passes (next :: w) t) : s.peek = some next := by
  rw [peek, Cursor.peek, h.cursor.rest_eq, List.cons_append, List.head?_cons]

/-- What is passed can be cut in two. -/
theorem split (h : s.Passes (v ++ w) u) : ∃ t, s.Passes v t ∧ t.Passes w u := by
  refine ⟨{ s with cursor := ⟨v.reverse ++ s.cursor.passed, w ++ u.cursor.rest⟩ }, ?_, ?_⟩
  · exact ⟨⟨by rw [h.cursor.rest_eq, List.append_assoc], rfl⟩, rfl⟩
  · refine ⟨⟨rfl, ?_⟩, h.eq⟩
    rw [h.cursor.passed_eq, List.reverse_append, List.append_assoc]

end Passes

theorem passes_advance (h : s.peek = some next) : s.Passes [next] s.advance :=
  ⟨Cursor.passes_advance h, rfl⟩

/-- A single character is passed by passing the next character. -/
theorem Passes.eq_advance (h : s.Passes [next] t) : t = s.advance :=
  h.unique (passes_advance h.peek_eq)

theorem Passes.reaches (h : s.Passes w t) : s.Reaches w t :=
  ⟨h.cursor, h.depth_eq, h.limit_eq⟩

namespace Reaches

theorem refl (s : State) : s.Reaches [] s :=
  (Passes.refl s).reaches

theorem trans (hv : s.Reaches v t) (hw : t.Reaches w u) : s.Reaches (v ++ w) u :=
  ⟨hv.cursor.trans hw.cursor, hw.depth_eq.trans hv.depth_eq, hw.limit_eq.trans hv.limit_eq⟩

end Reaches

/-! ## Runs of one class of characters -/

theorem scans_run (accept : Char → Bool) (s : State) :
    s.Scans accept (s.run accept) (s.skipWhile accept) := by
  refine ⟨⟨Cursor.passes_takeWhile accept s.cursor, rfl⟩, fun c hc => ?_, fun c hc => ?_⟩
  · exact List.all_eq_true.mp List.all_takeWhile c hc
  · have h := List.head?_dropWhile_not accept s.cursor.rest
    have hc : (s.cursor.rest.dropWhile accept).head? = some c := hc
    rwa [hc] at h

/-- The longest run that can be passed is the one that the state computes. -/
theorem Scans.eq {accept : Char → Bool} {run : List Char} (h : s.Scans accept run t) :
    run = s.run accept ∧ t = s.skipWhile accept := by
  have hrun : run = s.run accept := by
    -- Behind the run, none of its characters comes next.
    have hstop : t.cursor.rest.takeWhile accept = [] := by
      rcases hrest : t.cursor.rest with _ | ⟨c, rest⟩
      · rfl
      · have hc : accept c = false := h.stop c (by simp [peek, Cursor.peek, hrest])
        simp [hc]
    rw [State.run, Cursor.takeWhile, h.passes.cursor.rest_eq, List.takeWhile_append_of_pos h.all,
      hstop, List.append_nil]
  subst hrun
  exact ⟨rfl, h.passes.unique (scans_run accept s).passes⟩

theorem Scans.skips (h : s.Scans (· == ' ') g t) : s.Skips g t := by
  refine ⟨h.passes, fun c hc => by simpa using h.all c hc, fun hpeek => ?_⟩
  simpa using h.stop ' ' hpeek

theorem Skips.scans (h : s.Skips g t) : s.Scans (· == ' ') g t := by
  refine ⟨h.passes, fun c hc => by simpa using h.gap c hc, fun c hc => ?_⟩
  rw [beq_eq_false_iff_ne]
  rintro rfl
  exact h.stop hc

/-- Skipping spaces passes a longest run of spaces. -/
theorem skips_skipSpaces (s : State) : ∃ g, s.Skips g s.skipSpaces :=
  ⟨_, (scans_run _ s).skips⟩

theorem Skips.eq_skipSpaces (h : s.Skips g t) : t = s.skipSpaces :=
  h.scans.eq.2

/-- A state in front of something else than a space skips nothing. -/
theorem skips_refl (h : s.peek ≠ some ' ') : s.Skips [] s :=
  ⟨.refl s, .nil, h⟩

theorem Skips.eq_self (h : s.Skips g t) (hpeek : s.peek ≠ some ' ') : t = s :=
  h.eq_skipSpaces.trans (skips_refl hpeek).eq_skipSpaces.symm

/-- Skip spaces and pass the character behind them. -/
theorem passes_skipSpaces_advance (h : s.skipSpaces.peek = some next) :
    ∃ g, Gap g ∧ s.Passes (g ++ [next]) s.skipSpaces.advance := by
  obtain ⟨g, hg⟩ := s.skips_skipSpaces
  exact ⟨g, hg.gap, hg.passes.trans (passes_advance h)⟩

/-- Spaces and one other character are passed by skipping spaces and passing that character. -/
theorem Passes.eq_skipSpaces_advance (hg : Gap g) (hnext : next ≠ ' ')
    (h : s.Passes (g ++ [next]) t) :
    s.skipSpaces.peek = some next ∧ t = s.skipSpaces.advance := by
  obtain ⟨u, hu, hnextu⟩ := h.split
  have hskip : s.Skips g u := by
    refine ⟨hu, hg, ?_⟩
    rw [hnextu.peek_eq]
    simpa using hnext
  rw [← hskip.eq_skipSpaces]
  exact ⟨hnextu.peek_eq, hnextu.eq_advance⟩

end Parser.State

end Calculator
