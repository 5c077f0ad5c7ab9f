import Calculator.Proofs.Grammar
import Calculator.Proofs.Runs

/-!
# What runs read

A run that succeeds has passed a text of the grammar, and what it found is the expression of that
text. Rules that go on behind something already read say how the text passed by them completes it
(`Rule.Makes`). How deep the expression found may be nested is kept apart from the text
(`Rule.Fits`), so that texts which a run has not passed can be put behind those which it has.

## Main results

* `Runs.ends`: a run stops only where its rule cannot go on.
* `Starts.makes`, `Starts.fits`: a rule makes what is made by the rule it starts and the rule it
  goes on with.
* `Runs.makes`, `Runs.fits`: what a run has passed, and how deep it is nested.
-/

namespace Calculator.Parser

open Grammar

variable {rule r : Rule} {s s₁ t : State} {next : Expr → Rule} {e e' : Expr} {reply : Reply Expr}

/-! ## Where runs end -/

/-- A text of the category cannot go on here. -/
def State.EndsAt (c : Category) (s : State) : Prop :=
  s.peek ≠ some ' ' ∧ ∀ next ∈ s.peek, c.continues next = false

/-- The expression is a function applied to an argument. -/
def IsCall (e : Expr) : Prop :=
  ∃ f argument, e = .call f argument

/-- Where a rule ends that was started in `s` and has found `e`. -/
def Rule.Ends : Rule → State → Expr → State → Prop
  | .chain level, _, _, t => t.EndsAt (.chain level)
  -- What has been read of a chain ends where its last operand does.
  | .more level _, s, _, t => s.EndsAt (.operand level) → t.EndsAt (.chain level)
  | .factor, _, _, t => t.EndsAt .factor
  | .openFactor, _, _, t => t.EndsAt .factor
  | .openPower _, _, _, t => t.EndsAt .factor
  -- Only a function takes all of a factor with it.
  | .openPrimary, _, e, t => IsCall e → t.EndsAt .factor
  | .close inner, _, e, _ => e = .group inner
  | .done e', s, e, t => e = e' ∧ t = s

theorem Rule.ends_operand (level : Level) (s t : State) (e : Expr) :
    (Rule.operand level).Ends s e t ↔ t.EndsAt (.operand level) := by
  cases level <;> rfl

theorem State.endsAt_factor_iff : s.EndsAt .factor ↔ s.peek ≠ some ' ' ∧ s.peek ≠ some '^' := by
  refine and_congr_right fun _ => ?_
  rcases s.peek with _ | c <;> simp [Category.continues]

theorem Stops.ends (h : Stops rule s ⟨.ok e, t⟩) : rule.Ends s e t := by
  cases h with
  | @more level _ _ _ g hskip hop =>
    rintro ⟨hspace, hends⟩
    obtain rfl := hskip.eq_self hspace
    refine ⟨hspace, fun c hc => ?_⟩
    have hop : level.operator? c = none := by
      have hc : t.peek = some c := hc
      simpa [State.next?, hc] using hop
    rw [Category.continues_chain, hends c hc, hop]
    rfl
  | power hskip hcaret => exact State.endsAt_factor_iff.mpr ⟨hskip.stop, hcaret⟩
  | numeral | constant =>
    rintro ⟨f, argument, h⟩
    cases h
  | close => rfl
  | done => exact ⟨rfl, rfl⟩

theorem Starts.ends {u : State} (h : Starts rule s r s₁ next) (hr : r.Ends s₁ e t)
    (hnext : (next e).Ends (t.atDepth s.depth) e' u) : rule.Ends s e' u := by
  cases h with
  | chain =>
    have hend : t.EndsAt _ := (Rule.ends_operand _ _ _ _).mp hr
    exact hnext hend
  | more =>
    have hend : t.EndsAt _ := (Rule.ends_operand _ _ _ _).mp hr
    exact fun _ => hnext hend
  | factor =>
    obtain ⟨rfl, rfl⟩ := hnext
    exact hr
  | sign =>
    obtain ⟨rfl, rfl⟩ := hnext
    exact hr
  | primary => exact hnext
  | power =>
    obtain ⟨rfl, rfl⟩ := hnext
    exact hr
  | group =>
    obtain rfl : e' = .group e := hnext
    rintro ⟨f, argument, h⟩
    cases h
  | call =>
    obtain ⟨rfl, rfl⟩ := hnext
    exact fun _ => hr

/-- A run stops only where its rule cannot go on. -/
theorem Runs.ends (h : Runs rule s ⟨.ok e, t⟩) : rule.Ends s e t := by
  induction h using Runs.ok_induction with
  | stop hstop => exact hstop.ends
  | next hstart _ _ ih ihnext => exact hstart.ends ih ihnext

/-- Where no power can follow, what has been read of a factor is all of it. -/
theorem Runs.openPower_eq (h : Runs (.openPower e) s reply) (hends : s.EndsAt .factor) :
    reply = ⟨.ok e, s⟩ := by
  obtain ⟨hspace, hcaret⟩ := State.endsAt_factor_iff.mp hends
  exact h.unique (.stop (.power (State.skips_refl hspace) hcaret))

/-! ## What runs make of the text passed -/

/-- Passing the text `w`, a rule makes the expression `e`. -/
def Rule.Makes : Rule → List Char → Expr → Prop
  | .chain level, w, e => Reads (.chain level) w e
  -- Whatever spells the left operand, the text passed goes on with it.
  | .more level left, w, e =>
    ∀ v, Reads (.chain level) v left → Reads (.chain level) (v ++ w) e
  | .factor, w, e => Reads .factor w e
  | .openFactor, w, e => Reads .factor w e
  | .openPower base, w, e =>
    (e = base ∧ Gap w) ∨
      ∃ g v exponent, Gap g ∧ w = g ++ '^' :: v ∧ Reads .factor v exponent ∧
        e = .power base exponent
  -- A function applied to its argument is read where an atom may stand, but it is a factor.
  | .openPrimary, w, e => Reads .atom w e ∨ (IsCall e ∧ Reads .factor w e)
  | .close inner, w, e => e = .group inner ∧ ∃ g, Gap g ∧ w = g ++ [')']
  | .done e', w, e => e = e' ∧ w = []

theorem Rule.makes_operand (level : Level) (w : List Char) (e : Expr) :
    (Rule.operand level).Makes w e ↔ Reads (.operand level) w e := by
  cases level <;> rfl

theorem Stops.makes (h : Stops rule s ⟨.ok e, t⟩) : ∃ w, s.Reaches w t ∧ rule.Makes w e := by
  cases h with
  | more hskip => exact ⟨_, hskip.passes.reaches, fun v hv => hv.append_gap hskip.gap⟩
  | power hskip => exact ⟨_, hskip.passes.reaches, Or.inl ⟨rfl, hskip.gap⟩⟩
  | numeral hscan _ hn => exact ⟨_, hscan.passes.reaches, Or.inl (.numeral hscan.all hn)⟩
  | constant hscan _ hc =>
    obtain rfl := Builtin.lookup?_ofList_eq_some_iff.mp hc
    exact ⟨_, hscan.passes.reaches.note _, Or.inl (.constant _)⟩
  | close hgap hpass => exact ⟨_, hpass.reaches, rfl, _, hgap, rfl⟩
  | done => exact ⟨_, .refl _, rfl, rfl⟩

/-- What a rule makes of the text passed in front of the rule it starts, of the text `w ++ z` passed
by that rule, and of the text `x` passed by the rule it goes on with. Only `w` need be there: the
rest of the text may be another one, as long as it does not go on with a name. A function that has
been applied is not raised to a power. -/
theorem Starts.makes (h : Starts rule s r s₁ next) :
    ∃ v, s.Reaches v (s₁.atDepth s.depth) ∧ ∀ w z x e e', w <+: s₁.cursor.rest →
      (∀ c ∈ z, c.isLower = false) → r.Makes (w ++ z) e → (next e).Makes x e' →
      (r = .openPrimary → IsCall e → e' = e ∧ Gap x) → rule.Makes (v ++ (w ++ z) ++ x) e' := by
  cases h with
  | @chain level =>
    refine ⟨[], .refl _, fun w z x e e' _ _ hr hx _ => ?_⟩
    have hr := (Rule.makes_operand level _ _).mp hr
    exact hx _ hr.single
  | @more level left _ _ g c op hgap hpass hop =>
    refine ⟨_, hpass.reaches.restore, fun w z x e e' _ _ hr hx _ v hv => ?_⟩
    have hr := (Rule.makes_operand level _ _).mp hr
    obtain ⟨rfl, rfl⟩ := Level.operator?_eq_some_iff.mp hop
    simpa using hx _ (.binary op (hv.append_gap hgap) hr)
  | factor =>
    refine ⟨[], .refl _, fun w z x e e' _ _ hr hx _ => ?_⟩
    obtain ⟨rfl, rfl⟩ := hx
    rw [List.nil_append, List.append_nil]
    exact hr
  | @sign _ _ g c sign hgap hpass hsign =>
    refine ⟨_, hpass.reaches.restore, fun w z x e e' _ _ hr hx _ => ?_⟩
    obtain ⟨rfl, rfl⟩ := hx
    obtain rfl := Sign.ofChar?_eq_some_iff.mp hsign
    show Reads .factor _ _
    simpa using (Reads.signed sign hr).gap_append hgap
  | primary hskip =>
    refine ⟨_, hskip.passes.reaches.restore, fun w z x e e' _ _ hr hx hcall => ?_⟩
    rcases hr with hr | ⟨hcalls, hr⟩
    -- An atom may be raised to a power, an applied function may not.
    · rcases hx with ⟨rfl, hx⟩ | ⟨g, v, exponent, hg, rfl, hv, rfl⟩
      · exact (hr.gap_append hskip.gap).atom.append_gap hx
      · show Reads .factor _ _
        simpa using ((hr.gap_append hskip.gap).append_gap hg).power hv
    · obtain ⟨rfl, hgap⟩ := hcall rfl hcalls
      exact (hr.gap_append hskip.gap).append_gap hgap
  | @power base _ _ g hgap hpass =>
    refine ⟨_, hpass.reaches.restore, fun w z x e e' _ _ hr hx _ => ?_⟩
    obtain ⟨rfl, rfl⟩ := hx
    exact Or.inr ⟨g, w ++ z, e, hgap, by simp, hr, rfl⟩
  | group hpass =>
    refine ⟨_, hpass.reaches.restore, fun w z x e e' _ _ hr hx _ => Or.inl ?_⟩
    obtain ⟨rfl, g, hg, rfl⟩ := hx
    simpa using (hr.append_gap hg).group
  | @call _ u run f hscan _ hf =>
    refine ⟨_, (hscan.passes.reaches.note _).restore, fun w z x e e' hw hz hr hx _ => Or.inr ?_⟩
    obtain ⟨rfl, rfl⟩ := hx
    obtain rfl := Builtin.lookup?_ofList_eq_some_iff.mp hf
    refine ⟨⟨f, e, rfl⟩, ?_⟩
    have hname : ∀ c ∈ (w ++ z).head?, c.isLower = false := by
      intro c hc
      -- The head has been there when the name was scanned, or it is no letter.
      rcases w with _ | ⟨d, w⟩
      · exact hz c (List.mem_of_mem_head? hc)
      · refine hscan.stop c ?_
        obtain ⟨rest, hrest⟩ := hw
        have hrest : u.cursor.rest = d :: w ++ rest := hrest.symm
        rw [State.peek, Cursor.peek, hrest]
        exact hc
    simpa using hr.call f hname

/-- After a function and its argument, the factor in which they stand is complete. -/
theorem Starts.of_isCall (h : Starts rule s r s₁ next) (hr : r = .openPrimary)
    (hrun : Runs r s₁ ⟨.ok e, t⟩) (hcall : IsCall e)
    (hnext : Runs (next e) (t.atDepth s.depth) reply) :
    reply = ⟨.ok e, t.atDepth s.depth⟩ := by
  cases h with
  | primary =>
    have hends : t.EndsAt .factor := hrun.ends hcall
    exact hnext.openPower_eq hends
  | @chain level => cases level <;> cases hr
  | @more level => cases level <;> cases hr
  | factor | sign | power | group | call => cases hr

/-- A run that succeeds has passed a text from which its rule makes what it found. -/
theorem Runs.makes (h : Runs rule s ⟨.ok e, t⟩) : ∃ w, s.Reaches w t ∧ rule.Makes w e := by
  induction h using Runs.ok_induction with
  | stop hstop => exact hstop.makes
  | @next rule r s s₁ u t next e e' hstart hrun hnext ih ihnext =>
    obtain ⟨v, hv, hmakes⟩ := hstart.makes
    obtain ⟨w, hw, hr⟩ := ih
    obtain ⟨x, hx, hn⟩ := ihnext
    refine ⟨v ++ w ++ x, (hv.trans hw.atDepth).trans hx, ?_⟩
    have hprefix : w <+: s₁.cursor.rest := ⟨_, hw.cursor.rest_eq.symm⟩
    -- The whole text has been there, so nothing is put in its place.
    have h := hmakes w [] x e e' hprefix (by simp) (by simpa using hr) hn fun hrule hcall => ?_
    · simpa using h
    · have hreply := hstart.of_isCall hrule hrun hcall hnext
      obtain ⟨⟨rfl⟩, rfl⟩ := Reply.mk.inj hreply
      obtain rfl : x = [] := hx.cursor.eq_of_passes (.refl _)
      exact ⟨rfl, .nil⟩

/-! ## How deep it is nested -/

/-- What a rule finds may be nested only so deep. -/
def Rule.Fits : Rule → Nat → Nat → Expr → Prop
  | .chain _, depth, limit, e => depth + e.nest ≤ limit
  | .more _ left, depth, limit, e => depth + left.nest ≤ limit → depth + e.nest ≤ limit
  | .factor, depth, limit, e => depth + e.nest ≤ limit
  -- Behind here the factor has been opened, and counts both in the depth and in the nesting.
  | .openFactor, depth, limit, e => depth + e.nest ≤ limit + 1
  | .openPower base, depth, limit, e =>
    depth + base.nest ≤ limit + 1 → depth + e.nest ≤ limit + 1
  | .openPrimary, depth, limit, e => depth + e.nest ≤ limit + 1
  | .close inner, depth, limit, e => depth + inner.nest ≤ limit → depth + e.nest ≤ limit + 1
  | .done e', _, _, e => e = e'

theorem Rule.fits_operand (level : Level) (depth limit : Nat) (e : Expr) :
    (Rule.operand level).Fits depth limit e ↔ depth + e.nest ≤ limit := by
  cases level <;> rfl

theorem Stops.fits (h : Stops rule s ⟨.ok e, t⟩) (hdepth : s.depth ≤ s.limit) :
    rule.Fits s.depth s.limit e := by
  cases h with
  | more | power => exact id
  | numeral | constant => exact Nat.add_le_add_right hdepth 1
  | close =>
    simp only [Rule.Fits, Expr.nest]
    omega
  | done => rfl

/-- How deep what a rule finds is nested follows from the rule it starts and the rule it goes on
with. -/
theorem Starts.fits {limit : Nat} (h : Starts rule s r s₁ next) (hr : r.Fits s₁.depth limit e)
    (hnext : (next e).Fits s.depth limit e') : rule.Fits s.depth limit e' := by
  cases h with
  | chain =>
    exact hnext ((Rule.fits_operand _ _ _ _).mp hr)
  | more _ hpass =>
    have hr := (Rule.fits_operand _ _ _ _).mp hr
    rw [hpass.depth_eq] at hr
    intro hleft
    refine hnext ?_
    simp only [Expr.nest]
    omega
  | factor =>
    obtain rfl : e' = e := hnext
    simp only [Rule.Fits, State.enter] at hr ⊢
    omega
  | sign _ hpass =>
    obtain rfl := hnext
    simp only [Rule.Fits, Expr.nest, hpass.depth_eq] at hr ⊢
    omega
  | primary hskip =>
    simp only [Rule.Fits, hskip.passes.depth_eq] at hr
    exact hnext hr
  | power _ hpass =>
    obtain rfl := hnext
    simp only [Rule.Fits, Expr.nest, hpass.depth_eq] at hr ⊢
    omega
  | group hpass =>
    simp only [Rule.Fits, hpass.depth_eq] at hr
    exact hnext hr
  | call hscan =>
    obtain rfl := hnext
    simp only [Rule.Fits, Expr.nest, State.note, hscan.passes.depth_eq] at hr ⊢
    omega

/-- The rule that is started has no more factors open than may be. -/
theorem Starts.depth_le (h : Starts rule s r s₁ next) (hdepth : s.depth ≤ s.limit) :
    s₁.depth ≤ s₁.limit := by
  by_cases hrule : rule = .factor
  · cases h with
    | factor hlt => exact hlt
    | chain | more | sign | primary | power | group | call => cases hrule
  · rw [h.depth_eq hrule, h.limit_eq]
    exact hdepth

/-- What a run finds is nested no deeper than is allowed. -/
theorem Runs.fits (h : Runs rule s ⟨.ok e, t⟩) (hdepth : s.depth ≤ s.limit) :
    rule.Fits s.depth s.limit e := by
  induction h using Runs.ok_induction with
  | stop hstop => exact hstop.fits hdepth
  | @next rule r s s₁ u t next e e' hstart hrun hnext ih ihnext =>
    have hs₁ := hstart.limit_eq
    have hu : u.limit = s.limit := hstart.limit_next hrun
    have hr : r.Fits s₁.depth s₁.limit e := ih (hstart.depth_le hdepth)
    have hle : s.depth ≤ u.limit := by rwa [hu]
    have hn : (next e).Fits s.depth u.limit e' := ihnext hle
    rw [hs₁] at hr
    rw [hu] at hn
    exact hstart.fits hr hn

end Calculator.Parser
