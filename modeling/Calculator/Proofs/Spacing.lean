import Calculator.Proofs.Lookahead
import Calculator.Proofs.Truthfulness

/-!
# Spaces between tokens

One space more between two tokens changes no value, and it moves failures behind it by one place.
The runs over both texts are kept side by side. As long as the place of the space lies ahead, both
have passed the same text; once it lies behind, one of them has passed one space more (`Widened`).
At the place itself either may be so. Where an operand is due the space has not been passed yet
(`Early`), and where a primary starts it has (`Late`): that is why too deep a nesting, which is
detected before spaces are skipped, is reported in front of the space, and all else behind it.

## Main definitions

* `Failure.pushed`: a failure in a text with one space more.
* `Widened`, `Early`, `Late`: the states of both runs, and which of them is where the space is.

## Main results

* `Runs.widened`: a run in a text with one space more.
* `evaluate_insert_space`: all of this for whole texts.
-/

namespace Calculator

/-- The same failure in a text with one space more at `place`. It is reported one place further
behind if it stands behind the space, and also if it stands where the space was put, unless it is
too deep a nesting. -/
def Failure.pushed (place : Nat) (f : Failure) : Failure :=
  if f.position < place ∨ f.position = place ∧ f.cause.kind = .resource then f
  else ⟨f.cause, f.position + 1⟩

/-- The place between two texts is not within a run of a class of characters. -/
def Apart (accept : Char → Bool) (before after : List Char) : Prop :=
  ∀ last ∈ before.getLast?, ∀ next ∈ after.head?, accept last = true → accept next = false

/-- Spaces with one more among them. -/
theorem Gap.insert {v w : List Char} (h : Gap (v ++ w)) : Gap (v ++ ' ' :: w) := by
  intro c hc
  simp only [List.mem_append, List.mem_cons] at hc
  rcases hc with hc | rfl | hc
  · exact h c (List.mem_append_left w hc)
  · rfl
  · exact h c (List.mem_append_right v hc)

namespace Parser

variable {rule r : Rule} {s s' s₁ t : State} {next : Expr → Rule} {reply : Reply Expr}
  {f : Failure} {before after w g run : List Char} {c : Char}

/-- The state `s'` is `s` in a text that has one space more, between the texts `before` and
`after`. -/
inductive Widened (before after : List Char) : State → State → Prop
  -- The place of the space is still to come, or it is here and the space comes next.
  | ahead {s : State} {w : List Char} (hbefore : before = s.cursor.before ++ w)
      (hrest : s.cursor.rest = w ++ after) :
      Widened before after s { s with cursor := ⟨s.cursor.passed, w ++ ' ' :: after⟩ }
  -- The space has been passed.
  | behind {s : State} {w : List Char} (hpassed : s.cursor.passed = w ++ before.reverse) :
      Widened before after s { s with cursor := ⟨w ++ ' ' :: before.reverse, s.cursor.rest⟩ }

/-- At the place of the space, it has not been passed. -/
def Early (before : List Char) (s s' : State) : Prop :=
  s.cursor.position = byteLength before → s'.cursor.position = s.cursor.position

/-- At the place of the space, it has been passed. -/
def Late (before : List Char) (s s' : State) : Prop :=
  s.cursor.position = byteLength before → s'.cursor.position = s.cursor.position + 1

namespace Widened

theorem depth_eq (h : Widened before after s s') : s'.depth = s.depth := by
  cases h <;> rfl

theorem limit_eq (h : Widened before after s s') : s'.limit = s.limit := by
  cases h <;> rfl

theorem enter (h : Widened before after s s') : Widened before after s.enter s'.enter := by
  cases h with
  | ahead hbefore hrest => exact .ahead (s := s.enter) hbefore hrest
  | behind hpassed => exact .behind (s := s.enter) hpassed

theorem note (lookup : Lookup) (h : Widened before after s s') :
    Widened before after (s.note lookup) (s'.note lookup) := by
  cases h with
  | ahead hbefore hrest => exact .ahead (s := s.note lookup) hbefore hrest
  | behind hpassed => exact .behind (s := s.note lookup) hpassed

theorem atDepth (depth : Nat) (h : Widened before after s s') :
    Widened before after (s.atDepth depth) (s'.atDepth depth) := by
  cases h with
  | ahead hbefore hrest => exact .ahead (s := s.atDepth depth) hbefore hrest
  | behind hpassed => exact .behind (s := s.atDepth depth) hpassed

/-- Up to the place of the space the positions agree, and from it on they differ by one. -/
theorem position (h : Widened before after s s') :
    (s.cursor.position ≤ byteLength before ∧ s'.cursor.position = s.cursor.position) ∨
      (byteLength before ≤ s.cursor.position ∧
        s'.cursor.position = s.cursor.position + 1) := by
  cases h with
  | @ahead w hbefore =>
    refine Or.inl ⟨?_, rfl⟩
    rw [hbefore, byteLength_append, ← Cursor.position_eq_byteLength_before]
    omega
  | @behind w hpassed =>
    have hspace : ' '.utf8Size = 1 := rfl
    refine Or.inr ⟨?_, ?_⟩
    · rw [Cursor.position, hpassed, byteLength_append, byteLength_reverse]
      omega
    · simp only [Cursor.position, hpassed, byteLength_append, byteLength_cons, hspace]
      omega

/-- The next character is the same, or it is the space. -/
theorem peek (h : Widened before after s s') : s'.peek = s.peek ∨ s'.peek = some ' ' := by
  cases h with
  | @ahead w hbefore hrest =>
    rcases w with _ | ⟨c, w⟩
    · exact Or.inr rfl
    · refine Or.inl ?_
      rw [State.peek, State.peek, Cursor.peek, Cursor.peek, hrest]
      rfl
  | behind => exact Or.inl rfl

/-- Text that is not empty takes up bytes. -/
theorem byteLength_pos {w : List Char} (hw : w ≠ []) : 0 < byteLength w :=
  Nat.pos_of_ne_zero fun h => hw (eq_nil_of_byteLength_eq_zero h)

/-- What is passed on one side is passed on the other, or the place of the space is within it, maybe
at its start. -/
theorem passes (h : Widened before after s s') (hpass : s.Passes w t) :
    (∃ t', s'.Passes w t' ∧ Widened before after t t' ∧ (w ≠ [] → Early before t t')) ∨
      ∃ v x t', w = v ++ x ∧ x ≠ [] ∧ s'.Passes (v ++ ' ' :: x) t' ∧ Widened before after t t' ∧
        byteLength before < t.cursor.position ∧ s'.cursor.position = s.cursor.position ∧
        before = s.cursor.before ++ v ∧ x <+: after := by
  have hrest := hpass.cursor.rest_eq
  have hpassed := hpass.cursor.passed_eq
  cases h with
  | @ahead z hbefore hahead =>
    have hcut : z ++ after = w ++ t.cursor.rest := hahead.symm.trans hrest
    by_cases hz : ∃ x, z = w ++ x ∧ t.cursor.rest = x ++ after
    · obtain ⟨x, rfl, hx⟩ := hz
      have ht : before = t.cursor.before ++ x := by
        rw [hpass.cursor.before_eq, List.append_assoc]
        exact hbefore
      refine Or.inl ⟨_, ?_, .ahead ht hx, fun _ _ => rfl⟩
      refine ⟨⟨by simp, hpassed⟩, ?_⟩
      rw [hpass.eq]
    · rcases List.append_eq_append_iff.mp hcut with ⟨x, rfl, hx⟩ | ⟨x, hzw, hx⟩
      · -- The space stands within the text, with `x` behind it.
        have hne : x ≠ [] := by
          rintro rfl
          exact hz ⟨[], by simp, hx.symm⟩
        have ht : t.cursor.passed = x.reverse ++ before.reverse := by
          rw [hpassed, hbefore, Cursor.before]
          simp
        have hposition : byteLength before < t.cursor.position := by
          have hpos := byteLength_pos hne
          rw [Cursor.position, ht, byteLength_append, byteLength_reverse, byteLength_reverse]
          omega
        refine Or.inr ⟨z, x, _, rfl, hne, ?_, .behind ht, hposition, rfl, hbefore, _,
          hx.symm⟩
        refine ⟨⟨by simp [hx], by simp [hbefore, Cursor.before]⟩, ?_⟩
        rw [hpass.eq]
      · exact absurd ⟨x, hzw, hx⟩ hz
  | @behind z hbehind =>
    have ht : t.cursor.passed = (w.reverse ++ z) ++ before.reverse := by
      rw [hpassed, hbehind, List.append_assoc]
    refine Or.inl ⟨_, ?_, .behind ht, fun hw hposition => ?_⟩
    · refine ⟨⟨hrest, by simp⟩, ?_⟩
      rw [hpass.eq]
    · have hpos := byteLength_pos hw
      rw [Cursor.position, ht] at hposition
      simp only [byteLength_append, byteLength_reverse] at hposition
      omega

/-- Where the space has been passed at its place, the next characters agree. -/
theorem peek_of_late (h : Widened before after s s') (hlate : Late before s s') :
    s'.peek = s.peek := by
  cases h with
  | @ahead w hbefore hrest =>
    rcases w with _ | ⟨c, w⟩
    · have hplace : s.cursor.position = byteLength before := by
        rw [hbefore, List.append_nil, Cursor.position_eq_byteLength_before]
      exact absurd (hlate hplace) (by simp [Cursor.position])
    · rw [State.peek, State.peek, Cursor.peek, Cursor.peek, hrest]
      rfl
  | behind => rfl

/-- At its place the space can be passed. -/
theorem exists_late (h : Widened before after s s') :
    ∃ g t', Gap g ∧ s'.Passes g t' ∧ Widened before after s t' ∧ Late before s t' := by
  cases h with
  | @ahead w hbefore hrest =>
    rcases w with _ | ⟨c, w⟩
    · have hpassed : s.cursor.passed = [] ++ before.reverse := by
        simp [hbefore, Cursor.before]
      refine ⟨[' '], _, by simp [Gap], ⟨⟨?_, ?_⟩, rfl⟩, .behind hpassed, fun _ => ?_⟩
      · simp [hrest]
      · simp [hbefore, Cursor.before]
      · simp only [Cursor.position, hpassed, List.nil_append, byteLength_cons]
        exact Nat.add_comm _ _
    · refine ⟨[], _, .nil, .refl _, .ahead hbefore hrest, fun hplace => ?_⟩
      have hpos := byteLength_pos (List.cons_ne_nil c w)
      rw [hbefore, byteLength_append, ← Cursor.position_eq_byteLength_before] at hplace
      omega
  | @behind w hpassed =>
    have h : Widened before after s _ := .behind hpassed
    refine ⟨[], _, .nil, .refl _, h, fun hplace => ?_⟩
    have hspace : ' '.utf8Size = 1 := rfl
    simp only [Cursor.position, hpassed, byteLength_append, byteLength_cons, hspace]
    omega

/-- Spaces and a character behind them. -/
theorem passes_concat (h : Widened before after s s') (hg : Gap g) (hpass : s.Passes (g ++ [c]) t) :
    ∃ g' t', Gap g' ∧ s'.Passes (g' ++ [c]) t' ∧ Widened before after t t' ∧
      Early before t t' := by
  rcases h.passes hpass with ⟨t', hpass', ht, hearly⟩ | ⟨v, x, t', hw, hx, hpass', ht, hlt, -⟩
  · exact ⟨g, t', hg, hpass', ht, hearly (by simp)⟩
  · -- The space stands among the others.
    obtain ⟨y, d, rfl⟩ := (List.eq_nil_or_concat x).resolve_left hx
    rw [List.concat_eq_append, ← List.append_assoc] at hw
    obtain ⟨rfl, rfl⟩ := List.append_singleton_inj.mp hw
    exact ⟨v ++ ' ' :: y, t', hg.insert, by simpa using hpass', ht, fun hplace => by omega⟩

/-- The longest run of spaces. -/
theorem skips (h : Widened before after s s') (hskip : s.Skips g t) :
    ∃ g' t', s'.Skips g' t' ∧ Widened before after t t' ∧ Late before t t' := by
  rcases h.passes hskip.passes with ⟨u, hpass, hu, -⟩ | ⟨v, x, t', hg, -, hpass, ht, hlt, -⟩
  · obtain ⟨g', t', hg', hpass', ht, hlate⟩ := hu.exists_late
    refine ⟨g ++ g', t', ⟨hpass.trans hpass', hskip.gap.append hg', ?_⟩, ht, hlate⟩
    rw [ht.peek_of_late hlate]
    exact hskip.stop
  · have hlate : Late before t t' := fun hplace => by omega
    refine ⟨v ++ ' ' :: x, t', ⟨hpass, ?_, ?_⟩, ht, hlate⟩
    · have hgap := hskip.gap
      rw [hg] at hgap
      exact hgap.insert
    · rw [ht.peek_of_late hlate]
      exact hskip.stop

/-- Text within which the space does not stand. -/
theorem passes_of_late (h : Widened before after s s') (hlate : Late before s s') (hw : w ≠ [])
    (hpass : s.Passes w t)
    (hcut : ∀ v x, w = v ++ x → v ≠ [] → x ≠ [] →
      ¬ (before = s.cursor.before ++ v ∧ x <+: after)) :
    ∃ t', s'.Passes w t' ∧ Widened before after t t' ∧ Early before t t' := by
  rcases h.passes hpass with
    ⟨t', hpass', ht, hearly⟩ | ⟨v, x, t', hvx, hx, -, -, -, hposition, hbefore, hafter⟩
  · exact ⟨t', hpass', ht, hearly hw⟩
  · by_cases hv : v = []
    · -- The space is behind, so the positions differ already.
      have hplace : s.cursor.position = byteLength before := by
        rw [hbefore, hv, List.append_nil, Cursor.position_eq_byteLength_before]
      have := hlate hplace
      omega
    · exact absurd ⟨hbefore, hafter⟩ (hcut v x hvx hv hx)

/-- The longest run of a class of characters that the space is not put within. -/
theorem scans {accept : Char → Bool} (h : Widened before after s s') (hlate : Late before s s')
    (hscan : s.Scans accept run t) (hrun : run ≠ []) (hspace : accept ' ' = false)
    (hapart : Apart accept before after) :
    ∃ t', s'.Scans accept run t' ∧ Widened before after t t' ∧ Early before t t' := by
  -- A cut would stand between two characters of the class.
  have hcut : ∀ v x, run = v ++ x → v ≠ [] → x ≠ [] →
      ¬ (before = s.cursor.before ++ v ∧ x <+: after) := by
    rintro v x rfl hv hx ⟨hbefore, ⟨z, hafter⟩⟩
    have hlast : v.getLast hv ∈ before.getLast? := by
      rw [hbefore, List.getLast?_append, List.getLast?_eq_some_getLast hv, Option.some_or]
      rfl
    have hnext : x.head hx ∈ after.head? := by
      rw [← hafter, List.head?_append, List.head?_eq_some_head hx, Option.some_or]
      rfl
    have hfalse := hapart _ hlast _ hnext
      (hscan.all _ (List.mem_append_left x (List.getLast_mem hv)))
    rw [hscan.all _ (List.mem_append_right v (List.head_mem hx))] at hfalse
    cases hfalse
  obtain ⟨t', hpass, ht, hearly⟩ := h.passes_of_late hlate hrun hscan.passes hcut
  refine ⟨t', ⟨hpass, hscan.all, fun c hc => ?_⟩, ht, hearly⟩
  rcases ht.peek with hpeek | hpeek
  · exact hscan.stop c (by rwa [← hpeek])
  · rw [hpeek] at hc
    rwa [← Option.some.inj hc]

/-- What is detected behind the space is moved by it. -/
theorem pushed_of_late {cause : Failure.Cause} (h : Widened before after s s')
    (hlate : Late before s s') (hkind : cause.kind ≠ .resource) :
    Failure.pushed (byteLength before) ⟨cause, s.cursor.position⟩ =
      ⟨cause, s'.cursor.position⟩ := by
  rcases h.position with ⟨hle, hposition⟩ | ⟨hle, hposition⟩
  · have hne : s.cursor.position ≠ byteLength before := fun hplace => by
      have := hlate hplace
      omega
    rw [Failure.pushed, if_pos (Or.inl (by show s.cursor.position < _; omega)), hposition]
  · rw [Failure.pushed, if_neg, hposition]
    rintro (hlt | ⟨-, hresource⟩)
    · exact absurd hlt (Nat.not_lt.mpr hle)
    · exact hkind hresource

/-- What is detected in front of the space stays where it is. -/
theorem pushed_of_early {cause : Failure.Cause} (h : Widened before after s s')
    (hearly : Early before s s') (hkind : cause.kind = .resource) :
    Failure.pushed (byteLength before) ⟨cause, s.cursor.position⟩ =
      ⟨cause, s'.cursor.position⟩ := by
  rcases h.position with ⟨hle, hposition⟩ | ⟨hle, hposition⟩
  · have hplace : s.cursor.position < byteLength before ∨
        s.cursor.position = byteLength before ∧ cause.kind = .resource := by
      rcases Nat.lt_or_eq_of_le hle with hlt | heq
      · exact Or.inl hlt
      · exact Or.inr ⟨heq, hkind⟩
    rw [Failure.pushed, if_pos hplace, hposition]
  · have hne : s.cursor.position ≠ byteLength before := fun hplace => by
      have := hearly hplace
      omega
    rw [Failure.pushed, if_neg, hposition]
    rintro (hlt | ⟨hplace, -⟩)
    · exact absurd hlt (Nat.not_lt.mpr hle)
    · exact hne hplace

end Widened

/-! ## Steps and runs in a text with one space more -/

/-- Where an operand is due the space has not been passed at its place, and where a primary starts
it has. -/
def Rule.Timing (before : List Char) : Rule → State → State → Prop
  | .chain _, s, s' => Early before s s'
  | .factor, s, s' => Early before s s'
  | .openFactor, s, s' => Early before s s'
  | .openPrimary, s, s' => Late before s s'
  | _, _, _ => True

theorem Rule.timing_operand (level : Level) :
    (Rule.operand level).Timing before s s' ↔ Early before s s' := by
  cases level <;> rfl

theorem Stops.widened (hlower : Apart Char.isLower before after)
    (hnumeral : Apart isNumeralChar before after) (h : Stops rule s reply)
    (hs : Widened before after s s') (htiming : rule.Timing before s s') :
    ∃ t', Stops rule s'
        ⟨reply.result.mapError (Failure.pushed (byteLength before)), t'⟩ ∧
      Widened before after reply.state t' := by
  cases h with
  | more hskip hop =>
    obtain ⟨g', t', hskip', ht, hlate⟩ := hs.skips hskip
    exact ⟨t', .more hskip' (by rwa [State.next?, ht.peek_of_late hlate]), ht⟩
  | tooDeep hdepth =>
    rw [Except.mapError, hs.pushed_of_early htiming rfl, ← hs.limit_eq]
    exact ⟨s', .tooDeep (by rwa [hs.limit_eq, hs.depth_eq]), hs⟩
  | power hskip hcaret =>
    obtain ⟨g', t', hskip', ht, hlate⟩ := hs.skips hskip
    exact ⟨t', .power hskip' (by rwa [ht.peek_of_late hlate]), ht⟩
  | unexpectedEnd hpeek =>
    rw [Except.mapError, hs.pushed_of_late htiming (by simp [Failure.Cause.kind])]
    exact ⟨s', .unexpectedEnd (by rwa [hs.peek_of_late htiming]), hs⟩
  | unexpectedCharacter hpeek hparen hnumeral hlower =>
    rw [Except.mapError, hs.pushed_of_late htiming (by simp [Failure.Cause.kind])]
    refine ⟨s', .unexpectedCharacter ?_ hparen hnumeral hlower, hs⟩
    rwa [hs.peek_of_late htiming]
  | numeral hscan hrun hn =>
    obtain ⟨t', hscan', ht, -⟩ := hs.scans htiming hscan hrun (by decide) hnumeral
    exact ⟨t', .numeral hscan' hrun hn, ht⟩
  | malformedNumeral hscan hrun hn =>
    obtain ⟨t', hscan', ht, -⟩ := hs.scans htiming hscan hrun (by decide) hnumeral
    rw [Except.mapError, hs.pushed_of_late htiming (by simp [Failure.Cause.kind])]
    exact ⟨t', .malformedNumeral hscan' hrun hn, ht⟩
  | constant hscan hrun hc =>
    obtain ⟨t', hscan', ht, -⟩ := hs.scans htiming hscan hrun (by decide) hlower
    exact ⟨_, .constant hscan' hrun hc, ht.note _⟩
  | unknownName hscan hrun hname =>
    obtain ⟨t', hscan', ht, -⟩ := hs.scans htiming hscan hrun (by decide) hlower
    rw [Except.mapError, hs.pushed_of_late htiming (by simp [Failure.Cause.kind])]
    exact ⟨_, .unknownName hscan' hrun hname, ht.note _⟩
  | close hgap hpass =>
    obtain ⟨g', t', hgap', hpass', ht, -⟩ := hs.passes_concat hgap hpass
    exact ⟨t', .close hgap' hpass', ht⟩
  | unclosed hskip hparen =>
    obtain ⟨g', t', hskip', ht, hlate⟩ := hs.skips hskip
    rw [Except.mapError, ht.pushed_of_late hlate (by simp [Failure.Cause.kind])]
    exact ⟨t', .unclosed hskip' (by rwa [ht.peek_of_late hlate]), ht⟩
  | done => exact ⟨s', .done, hs⟩

theorem Starts.widened (hlower : Apart Char.isLower before after) (h : Starts rule s r s₁ next)
    (hs : Widened before after s s') (htiming : rule.Timing before s s') :
    ∃ s₁', Starts rule s' r s₁' next ∧ Widened before after s₁ s₁' ∧ r.Timing before s₁ s₁' := by
  cases h with
  | chain => exact ⟨s', .chain, hs, (Rule.timing_operand _).mpr htiming⟩
  | more hgap hpass hop =>
    obtain ⟨g', t', hgap', hpass', ht, hearly⟩ := hs.passes_concat hgap hpass
    exact ⟨t', .more hgap' hpass' hop, ht, (Rule.timing_operand _).mpr hearly⟩
  | factor hdepth =>
    exact ⟨s'.enter, .factor (by rwa [hs.depth_eq, hs.limit_eq]), hs.enter, htiming⟩
  | sign hgap hpass hsign =>
    obtain ⟨g', t', hgap', hpass', ht, hearly⟩ := hs.passes_concat hgap hpass
    exact ⟨t', .sign hgap' hpass' hsign, ht, hearly⟩
  | primary hskip hsign =>
    obtain ⟨g', t', hskip', ht, hlate⟩ := hs.skips hskip
    exact ⟨t', .primary hskip' (by rwa [State.next?, ht.peek_of_late hlate]), ht, hlate⟩
  | power hgap hpass =>
    obtain ⟨g', t', hgap', hpass', ht, hearly⟩ := hs.passes_concat hgap hpass
    exact ⟨t', .power hgap' hpass', ht, hearly⟩
  | group hpass =>
    -- A single character cannot be cut.
    have hcut : ∀ v x : List Char, ['('] = v ++ x → v ≠ [] → x ≠ [] →
        ¬ (before = s.cursor.before ++ v ∧ x <+: after) := by
      intro v x hvx hv hx _
      have hlength := congrArg List.length hvx
      have hvpos := List.length_pos_iff.mpr hv
      have hxpos := List.length_pos_iff.mpr hx
      simp only [List.length_singleton, List.length_append] at hlength
      omega
    obtain ⟨t', hpass', ht, hearly⟩ := hs.passes_of_late htiming (by simp) hpass hcut
    exact ⟨t', .group hpass', ht, hearly⟩
  | call hscan hrun hf =>
    obtain ⟨t', hscan', ht, hearly⟩ := hs.scans htiming hscan hrun (by decide) hlower
    exact ⟨_, .call hscan' hrun hf, ht.note _, hearly⟩

/-- Nothing is asked of the states in which a rule goes on. -/
theorem Starts.timing_next (h : Starts rule s r s₁ next) (e : Expr) (u u' : State) :
    (next e).Timing before u u' := by
  cases h <;> trivial

/-- A run in a text with one space more finds the same, or it fails in the same way. -/
theorem Runs.widened (hlower : Apart Char.isLower before after)
    (hnumeral : Apart isNumeralChar before after) (h : Runs rule s reply)
    (hs : Widened before after s s') (htiming : rule.Timing before s s') :
    ∃ t', Runs rule s' ⟨reply.result.mapError (Failure.pushed (byteLength before)), t'⟩ ∧
      Widened before after reply.state t' := by
  induction h generalizing s' with
  | stop hstop =>
    obtain ⟨t', hstop', ht⟩ := hstop.widened hlower hnumeral hs htiming
    exact ⟨t', .stop hstop', ht⟩
  | fail hstart hrun ih =>
    obtain ⟨s₁', hstart', hs₁, htiming₁⟩ := hstart.widened hlower hs htiming
    obtain ⟨t', hrun', ht⟩ := ih hs₁ htiming₁
    rw [← hs.depth_eq]
    exact ⟨_, .fail hstart' hrun', ht.atDepth _⟩
  | next hstart hrun hnext ih ihnext =>
    obtain ⟨s₁', hstart', hs₁, htiming₁⟩ := hstart.widened hlower hs htiming
    obtain ⟨t', hrun', ht⟩ := ih hs₁ htiming₁
    obtain ⟨u', hnext', hu⟩ := ihnext (ht.atDepth _) (hstart.timing_next _ _ _)
    rw [← hs.depth_eq] at hnext'
    exact ⟨u', .next hstart' hrun' hnext', hu⟩

/-! ## Whole texts -/

variable {limit : Nat}

theorem Widened.start (limit : Nat) (before after : List Char) :
    Widened before after (.start limit (before ++ after)) (.start limit (before ++ ' ' :: after)) :=
  .ahead (s := .start limit (before ++ after)) rfl rfl

theorem Early.start (limit : Nat) (before after : List Char) :
    (Rule.chain .sum).Timing before (.start limit (before ++ after))
      (.start limit (before ++ ' ' :: after)) :=
  fun _ => rfl

/-- A parse that succeeds finds the same in a text with one space more. -/
theorem Parses.widened {e : Expr} (hlower : Apart Char.isLower before after)
    (hnumeral : Apart isNumeralChar before after) (h : Parses limit (before ++ after) ⟨.ok e, t⟩) :
    ∃ t', Parses limit (before ++ ' ' :: after) ⟨.ok e, t'⟩ := by
  cases h with
  | ok hrun hskip hend =>
    obtain ⟨s', hrun', hs'⟩ := hrun.widened hlower hnumeral (.start limit before after)
      (Early.start limit before after)
    obtain ⟨g', t', hskip', ht, hlate⟩ := hs'.skips hskip
    have hpeek := ht.peek_of_late hlate
    rw [State.peek, State.peek, Cursor.peek, Cursor.peek, hend] at hpeek
    exact ⟨t', .ok hrun' hskip' (List.head?_eq_none_iff.mp hpeek)⟩

/-- A parse that fails does so in the same way in a text with one space more. -/
theorem Parses.pushed (hlower : Apart Char.isLower before after)
    (hnumeral : Apart isNumeralChar before after)
    (h : Parses limit (before ++ after) ⟨.error f, t⟩) :
    ∃ t' front rest, before ++ ' ' :: after = front ++ rest ∧
      byteLength front = (f.pushed (byteLength before)).position ∧
      Parses limit (before ++ ' ' :: after)
        ⟨.error ((f.pushed (byteLength before)).withRest (String.ofList rest)), t'⟩ := by
  cases h with
  | fail hrun =>
    obtain ⟨t', hrun', -⟩ := hrun.widened hlower hnumeral (.start limit before after)
      (Early.start limit before after)
    have hparse : Parses limit (before ++ ' ' :: after)
        ⟨.error (f.pushed (byteLength before)), t'⟩ := .fail hrun'
    obtain ⟨front, rest, htext, hposition, -⟩ := hparse.describes
    have hrest : Runs _ _ ⟨.error (f.pushed (byteLength before)), t'⟩ := hrun'
    refine ⟨t', front, rest, htext, hposition, ?_⟩
    rwa [hrest.withRest_eq]
  | trailing hrun hskip hend =>
    obtain ⟨s', hrun', hs'⟩ := hrun.widened hlower hnumeral (.start limit before after)
      (Early.start limit before after)
    obtain ⟨g', t', hskip', ht, hlate⟩ := hs'.skips hskip
    obtain ⟨w, hw⟩ := hrun'.reaches
    have hpass := hw.cursor.trans hskip'.passes.cursor
    have hbefore := hpass.before_eq
    have hend' : t'.cursor.rest ≠ [] := by
      intro hnil
      have hpeek := ht.peek_of_late hlate
      rw [State.peek, State.peek, Cursor.peek, Cursor.peek, hnil] at hpeek
      exact hend (List.head?_eq_none_iff.mp hpeek.symm)
    rw [ht.pushed_of_late hlate (by simp [Failure.Cause.kind])]
    refine ⟨t', t'.cursor.before, t'.cursor.rest, ?_, ?_, .trailing hrun' hskip' hend'⟩
    · rw [hbefore]
      exact hpass.rest_eq
    · exact t'.cursor.position_eq_byteLength_before.symm

end Parser

open Calculator.Parser

/-- One space more between two tokens changes no value. Failures stay the same but for their
position, which moves by one if it is behind the space, and for the input left over, which is told
as it is. -/
theorem evaluate_insert_space {limit : Nat} {before after : String}
    (hlower : Apart Char.isLower before.toList after.toList)
    (hnumeral : Apart isNumeralChar before.toList after.toList) :
    (∀ v, evaluate ⟨limit⟩ (before ++ after) = .ok v →
      evaluate ⟨limit⟩ (before ++ " " ++ after) = .ok v) ∧
    ∀ f, evaluate ⟨limit⟩ (before ++ after) = .error f →
      ∃ front rest : String, before ++ " " ++ after = front ++ rest ∧
        front.utf8ByteSize = (f.pushed before.utf8ByteSize).position ∧
        evaluate ⟨limit⟩ (before ++ " " ++ after) =
          .error ((f.pushed before.utf8ByteSize).withRest rest) := by
  have hbytes : before.utf8ByteSize = byteLength before.toList := by
    rw [← utf8ByteSize_ofList, String.ofList_toList]
  have htext : (before ++ " " ++ after).toList = before.toList ++ ' ' :: after.toList := by simp
  constructor
  · intro v hv
    obtain ⟨e, t, hparse, rfl⟩ := evaluate_eq_ok_iff.mp hv
    rw [String.toList_append] at hparse
    obtain ⟨t', hparse'⟩ := hparse.widened hlower hnumeral
    rw [evaluate_eq_ok_iff, htext]
    exact ⟨e, t', hparse', rfl⟩
  · intro f hf
    obtain ⟨t, hparse⟩ := evaluate_eq_error_iff.mp hf
    rw [String.toList_append] at hparse
    obtain ⟨t', front, rest, hcut, hposition, hparse'⟩ := hparse.pushed hlower hnumeral
    refine ⟨String.ofList front, String.ofList rest, ?_, ?_, ?_⟩
    · rw [← String.ofList_append, ← hcut, ← htext, String.ofList_toList]
    · rw [utf8ByteSize_ofList, hposition, hbytes]
    · rw [evaluate_eq_error_iff, hbytes, htext]
      exact ⟨t', hparse'⟩

/-- A space in front of a parenthesis that is left over moves the failure, and nothing else. -/
theorem evaluate_insert_space_in_front_of_parenthesis :
    evaluate ⟨1⟩ ("1" ++ ")") = .error ⟨.trailingInput ")", 1⟩ ∧
      ∃ front rest : String, "1" ++ " " ++ ")" = front ++ rest ∧ front.utf8ByteSize = 2 ∧
        evaluate ⟨1⟩ ("1" ++ " " ++ ")") = .error ⟨.trailingInput rest, 2⟩ := by
  have hlower : Apart Char.isLower "1".toList ")".toList := by simp [Apart]
  have hnumeral : Apart isNumeralChar "1".toList ")".toList := by simp [Apart, isNumeralChar]
  have h : evaluate ⟨1⟩ ("1" ++ ")") = .error ⟨.trailingInput ")", 1⟩ := by decide +kernel
  exact ⟨h, (evaluate_insert_space hlower hnumeral).2 _ h⟩

end Calculator
