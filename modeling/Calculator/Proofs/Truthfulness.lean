import Calculator.Proofs.Openings

/-!
# Failures describe the text

What a failure says about the text is so. The character that it names stands at its position and
could start no operand, a name or a literal that it quotes stands there and cannot be continued on
either side, and a group that it calls unclosed is one.

Each of this holds because of what has been read before: spaces and signs in front of a primary, the
operators behind the expression of a group, and one opening parenthesis for each group that is still
open. These facts are kept together as what is known where a rule is started (`Rule.Stands`).

## Main definitions

* `WholeRun`: a run of a class of characters that cannot be continued on either side.
* `Failure.Cause.Describes`: what a cause says about the text on both sides of the position.

## Main results

* `Tree.Spells.count_parens`: a text of the grammar closes what it opens.
* `Stops.describes`: a step that fails describes the text where it was made.
* `evaluate_error_describes`: every failure of an evaluation describes the text.
-/

namespace Calculator

/-- Between `before` and `after`, the text `run` is a longest run of a class of characters. -/
structure WholeRun (accept : Char → Bool) (before run after : List Char) : Prop where
  /-- The run is not empty. -/
  ne_nil : run ≠ []
  /-- The run holds nothing else. -/
  all : ∀ c ∈ run, accept c = true
  /-- The run cannot be continued to the left. -/
  left : ∀ c ∈ before.getLast?, accept c = false
  /-- The run cannot be continued to the right. -/
  right : ∀ c ∈ after.head?, accept c = false

/-- What a cause says about a text with the position of the failure between `before` and `after`,
under a limit for the number of open factors. -/
def Failure.Cause.Describes (limit : Nat) (before after : List Char) : Failure.Cause → Prop
  | .unexpectedCharacter found =>
    after.head? = some found ∧ found ∉ [' ', '+', '-', '('] ∧ isNumeralChar found = false ∧
      found.isLower = false
  | .unexpectedEnd => after = []
  | .unclosedGroup =>
    before.count ')' < before.count '(' ∧
      ∀ c ∈ after.head?, c ∉ [' ', ')', '+', '-', '*', '/', '^']
  | .trailingInput rest => after = rest.toList
  | .unknownName name =>
    (∃ rest, after = name.toList ++ rest ∧ WholeRun Char.isLower before name.toList rest) ∧
      Builtin.lookup? name = none
  | .malformedNumeral literal =>
    (∃ rest, after = literal.toList ++ rest ∧
        WholeRun isNumeralChar before literal.toList rest) ∧
      ((∀ c ∈ literal.toList, c.isDigit = false) ∨ 2 ≤ literal.toList.count '.')
  | .nestingTooDeep most => most = limit

/-- Where an operand is due, no numeral goes on. -/
theorem OperandDue.isNumeralChar_getLast {before : List Char} (h : OperandDue before) :
    ∀ last ∈ before.getLast?, isNumeralChar last = false := by
  intro last hlast
  cases h with
  | start => cases hlast
  | symbol hc =>
    rw [List.getLast?_concat] at hlast
    obtain rfl := Option.some.inj hlast
    simp only [List.mem_cons, List.not_mem_nil, or_false] at hc
    rcases hc with rfl | rfl | rfl | rfl | rfl | rfl <;> decide
  | name f =>
    -- The last character is that of the name.
    have hname := (Builtin.function f).name_ne_nil
    have hmem : last ∈ (Builtin.function f).name.toList := by
      rw [List.getLast?_append, List.getLast?_eq_some_getLast hname, Option.some_or] at hlast
      obtain rfl := Option.some.inj hlast
      exact List.getLast_mem hname
    exact isNumeralChar_eq_false_of_isLower (Builtin.isLower_of_mem_name hmem)
  | space =>
    rw [List.getLast?_concat] at hlast
    obtain rfl := Option.some.inj hlast
    decide

/-! ## Parentheses -/

/-- A character that is not in a class is in no text of that class. -/
theorem count_eq_zero_of_class {accept : Char → Bool} {w : List Char} {c : Char}
    (h : ∀ c ∈ w, accept c = true) (hc : accept c = false) : w.count c = 0 := by
  refine List.count_eq_zero.mpr fun hmem => ?_
  rw [h c hmem] at hc
  cases hc

theorem Gap.count_eq_zero {g : List Char} {c : Char} (hg : Gap g) (hc : c ≠ ' ') :
    g.count c = 0 :=
  List.count_eq_zero.mpr fun hmem => hc (hg c hmem)

namespace Grammar

/-- A spelling has as many opening as closing parentheses. -/
theorem Tree.Spells.count_parens {c : Category} {T : Tree c} {w : List Char} (h : T.Spells w) :
    w.count '(' = w.count ')' := by
  have hgap : ∀ {g : List Char}, Gap g → g.count '(' = 0 ∧ g.count ')' = 0 :=
    fun hg => ⟨hg.count_eq_zero (by decide), hg.count_eq_zero (by decide)⟩
  have hname : ∀ b : Builtin, b.name.toList.count '(' = 0 ∧ b.name.toList.count ')' = 0 :=
    fun b => ⟨count_eq_zero_of_class (fun _ => Builtin.isLower_of_mem_name) (by decide),
      count_eq_zero_of_class (fun _ => Builtin.isLower_of_mem_name) (by decide)⟩
  induction h with
  | @number n _ _ hg hg' =>
    have hopen : n.run.count '(' = 0 := count_eq_zero_of_class n.chars (by decide)
    have hclose : n.run.count ')' = 0 := count_eq_zero_of_class n.chars (by decide)
    simp [hgap hg, hgap hg', hopen, hclose]
  | constant hg hg' => simp [hgap hg, hgap hg', Constant.word_eq, hname]
  | group hg _ hg' ih => simp [hgap hg, hgap hg', ih]
  | atom _ ih => exact ih
  | power _ _ ihv ihw => simp [ihv, ihw]
  | @signed sign _ _ _ hg _ ih => cases sign <;> simp [Sign.symbol, hgap hg, ih]
  | call hg _ _ ih => simp [hgap hg, UnaryFunction.word_eq, hname, ih]
  | single _ ih => exact ih
  | @binary _ op _ _ _ _ _ _ _ ihv ihw => cases op <;> simp [Operator.symbol, ihv, ihw]

theorem Reads.count_parens {c : Category} {w : List Char} {e : Expr} (h : Reads c w e) :
    w.count '(' = w.count ')' := by
  obtain ⟨T, -, hw⟩ := h
  exact hw.count_parens

end Grammar

namespace Parser

open Grammar

variable {rule r : Rule} {s s₁ t : State} {next : Expr → Rule} {e : Expr} {f : Failure}
  {w g run : List Char}

/-- The number of parentheses that a rule has yet to close. -/
def Rule.owed : Rule → Nat
  | .close _ => 1
  | _ => 0

/-- Only the rule of a group passes a parenthesis in front of the rule that it starts, and then the
rule that goes on has to close it. -/
theorem Starts.parens (h : Starts rule s r s₁ next) :
    ∃ v, s.Reaches v (s₁.atDepth s.depth) ∧ v.count ')' = 0 ∧
      ∀ e, (next e).owed ≤ v.count '(' := by
  cases h with
  | chain => exact ⟨[], .refl _, rfl, fun _ => Nat.zero_le _⟩
  | @more level _ _ _ g c op hgap hpass hop =>
    obtain ⟨-, rfl⟩ := Level.operator?_eq_some_iff.mp hop
    refine ⟨_, hpass.reaches.restore, ?_, fun _ => Nat.zero_le _⟩
    rw [List.count_append, hgap.count_eq_zero (by decide)]
    cases op <;> rfl
  | factor => exact ⟨[], .refl _, rfl, fun _ => Nat.zero_le _⟩
  | @sign _ _ g c sign hgap hpass hsign =>
    obtain rfl := Sign.ofChar?_eq_some_iff.mp hsign
    refine ⟨_, hpass.reaches.restore, ?_, fun _ => Nat.zero_le _⟩
    rw [List.count_append, hgap.count_eq_zero (by decide)]
    cases sign <;> rfl
  | primary hskip =>
    exact ⟨_, hskip.passes.reaches.restore, hskip.gap.count_eq_zero (by decide),
      fun _ => Nat.zero_le _⟩
  | power hgap hpass =>
    refine ⟨_, hpass.reaches.restore, ?_, fun _ => Nat.zero_le _⟩
    rw [List.count_append, hgap.count_eq_zero (by decide)]
    rfl
  | group hpass => exact ⟨_, hpass.reaches.restore, rfl, fun _ => Nat.le_refl _⟩
  | call hscan =>
    exact ⟨_, (hscan.passes.reaches.note _).restore,
      count_eq_zero_of_class hscan.all (by decide), fun _ => Nat.zero_le _⟩

/-- A rule that is started by another one makes what it finds of a text of the grammar. -/
theorem Starts.reads (h : Starts rule s r s₁ next) (hr : r.Makes w e) : ∃ c, Reads c w e := by
  cases h with
  | @chain level | @more level => exact ⟨_, (Rule.makes_operand level _ _).mp hr⟩
  | factor | sign | power | group | call => exact ⟨_, hr⟩
  | primary =>
    rcases hr with hr | ⟨-, hr⟩
    · exact ⟨_, hr⟩
    · exact ⟨_, hr⟩

/-! ## What is known where a rule is started -/

/-- What a rule knows of the character that comes next. -/
def Rule.Sees : Rule → State → Prop
  -- Spaces in front of a primary have been skipped, and a sign has been looked for.
  | .openPrimary, s => s.peek ≠ some ' ' ∧ s.next? Sign.ofChar? = none
  -- The expression in a group has been read as far as it goes.
  | .close _, s => s.EndsAt .expression
  | _, _ => True

/-- What is known where a rule is started. -/
structure Rule.Stands (rule : Rule) (s : State) : Prop where
  /-- An operand is due, or it is behind one. -/
  ready : rule.Ready s
  /-- No more factors are open than may be. -/
  depth_le : s.depth ≤ s.limit
  /-- The next character is known so far. -/
  sees : rule.Sees s
  /-- As many parentheses are open as the rule has to close, and maybe more. -/
  parens : s.cursor.before.count ')' + rule.owed ≤ s.cursor.before.count '('

theorem State.Reaches.before_eq (h : s.Reaches w t) : t.cursor.before = s.cursor.before ++ w :=
  h.cursor.before_eq

theorem Starts.sees (h : Starts rule s r s₁ next) : r.Sees s₁ := by
  cases h with
  | @chain level | @more level => cases level <;> trivial
  | primary hskip hsign => exact ⟨hskip.stop, hsign⟩
  | factor | sign | power | group | call => trivial

theorem Starts.sees_next (h : Starts rule s r s₁ next) (hrun : Runs r s₁ ⟨.ok e, t⟩) :
    (next e).Sees (t.atDepth s.depth) := by
  cases h with
  | group =>
    have hends : t.EndsAt .expression := hrun.ends
    exact hends
  | chain | more | factor | sign | primary | power | call => trivial

theorem Starts.stands (h : Starts rule s r s₁ next) (hs : rule.Stands s) : r.Stands s₁ := by
  refine ⟨h.ready hs.ready, h.depth_le hs.depth_le, h.sees, ?_⟩
  obtain ⟨v, hv, hclose, -⟩ := h.parens
  have hbefore : s₁.cursor.before = s.cursor.before ++ v := hv.before_eq
  -- No rule that is started has anything to close yet.
  have howed : r.owed = 0 := by
    cases h with
    | @chain level | @more level => cases level <;> rfl
    | factor | sign | primary | power | group | call => rfl
  have hparens := hs.parens
  rw [hbefore, List.count_append, List.count_append]
  omega

theorem Starts.stands_next (h : Starts rule s r s₁ next) (hrun : Runs r s₁ ⟨.ok e, t⟩)
    (hs : rule.Stands s) : (next e).Stands (t.atDepth s.depth) := by
  have hlimit := h.limit_next hrun
  refine ⟨h.ready_next hs.ready hs.depth_le hrun, ?_, h.sees_next hrun, ?_⟩
  · rw [hlimit]
    exact hs.depth_le
  · obtain ⟨v, hv, hclose, hopen⟩ := h.parens
    obtain ⟨w, hw, hmakes⟩ := hrun.makes
    obtain ⟨c, hreads⟩ := h.reads hmakes
    have hreach := hv.trans hw.atDepth
    -- What the rule started in between has passed is balanced.
    have hbalance := hreads.count_parens
    have hparens := hs.parens
    have hopen := hopen e
    rw [hreach.before_eq]
    simp only [List.count_append]
    omega

/-! ## What failures say -/

/-- A step that fails describes the text where it was made. -/
theorem Stops.describes (h : Stops rule s ⟨.error f, t⟩) (hs : rule.Stands s) :
    f.position = s.cursor.position ∧
      f.cause.Describes s.limit s.cursor.before s.cursor.rest := by
  cases h with
  | tooDeep => exact ⟨rfl, rfl⟩
  | unexpectedEnd hpeek => exact ⟨rfl, List.head?_eq_none_iff.mp hpeek⟩
  | @unexpectedCharacter _ found hpeek hparen hnumeral hlower =>
    obtain ⟨hspace, hsign⟩ := hs.sees
    have hsign : Sign.ofChar? found = none := by
      rwa [State.next?, hpeek, Option.bind_some] at hsign
    refine ⟨rfl, hpeek, ?_, hnumeral, hlower⟩
    simp only [List.mem_cons, List.not_mem_nil, or_false]
    rintro (rfl | rfl | rfl | rfl)
    · exact hspace hpeek
    · cases hsign
    · cases hsign
    · exact hparen rfl
  | malformedNumeral hscan hrun hn =>
    have hleft := hs.ready.due.isNumeralChar_getLast
    refine ⟨rfl, ⟨t.cursor.rest, ?_, ?_⟩, ?_⟩
    · rw [String.toList_ofList]
      exact hscan.passes.cursor.rest_eq
    · rw [String.toList_ofList]
      exact ⟨hrun, hscan.all, hleft, hscan.stop⟩
    · rw [String.toList_ofList]
      exact not_isDigit_or_two_le_count hscan.all hn
  | @unknownName _ u run hscan hrun hname =>
    have hleft := hs.ready.getLast_before hscan hrun
    refine ⟨rfl, ⟨u.cursor.rest, ?_, ?_⟩, hname⟩
    · rw [String.toList_ofList]
      exact hscan.passes.cursor.rest_eq
    · rw [String.toList_ofList]
      exact ⟨hrun, hscan.all, hleft, hscan.stop⟩
  | unclosed hskip hparen =>
    obtain ⟨hspace, hends⟩ := hs.sees
    -- The expression in the group has passed the spaces behind it, so here there are none.
    obtain rfl := hskip.eq_self hspace
    have hparens := hs.parens
    refine ⟨rfl, Nat.lt_of_succ_le hparens, fun c hc => ?_⟩
    have hcontinues := hends c hc
    simp only [List.mem_cons, List.not_mem_nil, or_false]
    rintro (rfl | rfl | rfl | rfl | rfl | rfl | rfl)
    · exact hspace hc
    · exact hparen hc
    all_goals cases hcontinues

/-- What is known at the start of a text. -/
theorem stands_start (limit : Nat) (text : List Char) :
    (Rule.chain .sum).Stands (.start limit text) :=
  ⟨State.due_start limit text, Nat.zero_le _, trivial, Nat.le_refl _⟩

/-- A failing parse describes its text. -/
theorem Parses.describes {limit : Nat} {text : List Char} (h : Parses limit text ⟨.error f, t⟩) :
    ∃ before after, text = before ++ after ∧ byteLength before = f.position ∧
      f.cause.Describes limit before after := by
  cases h with
  | fail hrun =>
    obtain ⟨r, u, v, w, hstop, ⟨hu, hlimit⟩, hw, -⟩ :=
      hrun.exists_stops_of_invariant (P := fun rule s => rule.Stands s ∧ s.limit = limit)
        (fun hstart h => ⟨hstart.stands h.1, hstart.limit_eq.trans h.2⟩)
        (fun hstart hrun h => ⟨hstart.stands_next hrun h.1, (hstart.limit_next hrun).trans h.2⟩)
        ⟨stands_start limit text, rfl⟩
    obtain ⟨hposition, hdescribes⟩ := hstop.describes hu
    rw [hlimit] at hdescribes
    have hbefore : u.cursor.before = w := hw.before_eq
    refine ⟨u.cursor.before, u.cursor.rest, ?_, ?_, hdescribes⟩
    · rw [hbefore]
      exact hw.cursor.rest_eq
    · rw [hposition, Cursor.position_eq_byteLength_before]
  | trailing hrun hskip =>
    obtain ⟨w, hw⟩ := hrun.reaches
    have hpass := hw.cursor.trans hskip.passes.cursor
    refine ⟨t.cursor.before, t.cursor.rest, ?_, ?_, String.toList_ofList.symm⟩
    · rw [hpass.before_eq]
      exact hpass.rest_eq
    · rw [Cursor.position_eq_byteLength_before]

end Parser

open Calculator.Parser

/-- The position of every failure is a place between two characters of the text, or one of its ends,
and what the failure says about the text on both sides of that place is so. -/
theorem evaluate_error_describes {limit : Nat} {text : String} {f : Failure}
    (h : evaluate ⟨limit⟩ text = .error f) :
    ∃ before after : String, text = before ++ after ∧ before.utf8ByteSize = f.position ∧
      f.cause.Describes limit before.toList after.toList := by
  obtain ⟨t, hparse⟩ := evaluate_eq_error_iff.mp h
  obtain ⟨before, after, htext, hposition, hdescribes⟩ := hparse.describes
  refine ⟨String.ofList before, String.ofList after, ?_, ?_, ?_⟩
  · rw [← String.ofList_append, ← htext, String.ofList_toList]
  · rw [utf8ByteSize_ofList, hposition]
  · rwa [String.toList_ofList, String.toList_ofList]

/-- A group in which an operand follows another one is not closed, though there is text left. -/
theorem evaluate_error_describes_unclosed :
    evaluate ⟨5⟩ "(1 2" = .error ⟨.unclosedGroup, 3⟩ ∧
      ∃ before after : String, "(1 2" = before ++ after ∧ before.utf8ByteSize = 3 ∧
        before.toList.count ')' < before.toList.count '(' ∧
        ∀ c ∈ after.toList.head?, c ∉ [' ', ')', '+', '-', '*', '/', '^'] := by
  have h : evaluate ⟨5⟩ "(1 2" = .error ⟨.unclosedGroup, 3⟩ := by decide +kernel
  exact ⟨h, evaluate_error_describes h⟩

end Calculator
