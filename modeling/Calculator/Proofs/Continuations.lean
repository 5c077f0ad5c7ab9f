import Calculator.Proofs.Runs

/-!
# What goes on behind an operand

A rule that goes on behind an operand asks for the value of the operand only, and for the text that
is left. So two runs, maybe of different texts, that have come to operands of equal values with the
same text behind them go on in the same way: the expressions found have equal values, and failures
have the same cause and differ in their positions as the runs did.

The runs are kept side by side as in the other simulations: states that agree in everything a step
asks for (`State.Alike`), rules that agree up to the values of operands (`Rule.Alike`), and replies
of which both hold (`Reply.Alike`). Rules around two runs whose replies are alike reply alike too
(`Starts.alike_around`), so it is enough to compare the runs where they differ.

## Main definitions

* `State.Alike`, `Rule.Alike`, `Reply.Alike`: states, rules and replies that differ in nothing that
  counts.

## Main results

* `Runs.alike`: rules that are alike reply alike.
* `Starts.alike_around`: rules around rules that reply alike.
* `Parses.alike`: whole parses.
-/

namespace Calculator.Parser

/-- The same text is left in both states and as many factors are open. One has passed `lead` bytes
where the other has passed `lead'`. -/
structure State.Alike (lead lead' : Nat) (s s' : State) : Prop where
  rest_eq : s'.cursor.rest = s.cursor.rest
  depth_eq : s'.depth = s.depth
  limit_eq : s'.limit = s.limit
  position_eq : s'.cursor.position + lead = s.cursor.position + lead'

/-- The same rule behind operands of equal values. -/
inductive Rule.Alike : Rule → Rule → Prop
  | chain (level : Level) : Alike (.chain level) (.chain level)
  | more {e e' : Expr} (level : Level) (h : e.value = e'.value) :
      Alike (.more level e) (.more level e')
  | factor : Alike .factor .factor
  | openFactor : Alike .openFactor .openFactor
  | openPower {e e' : Expr} (h : e.value = e'.value) : Alike (.openPower e) (.openPower e')
  | openPrimary : Alike .openPrimary .openPrimary
  | close {e e' : Expr} (h : e.value = e'.value) : Alike (.close e) (.close e')
  | done {e e' : Expr} (h : e.value = e'.value) : Alike (.done e) (.done e')

/-- Expressions of equal values, or failures for the same cause. -/
inductive Reply.Alike (lead lead' : Nat) : Reply Expr → Reply Expr → Prop
  | ok {e e' : Expr} {t t' : State} (hvalue : e.value = e'.value) (hstate : t.Alike lead lead' t') :
      Alike lead lead' ⟨.ok e, t⟩ ⟨.ok e', t'⟩
  | error {cause : Failure.Cause} {position position' : Nat} {t t' : State}
      (hposition : position' + lead = position + lead') (hstate : t.Alike lead lead' t') :
      Alike lead lead' ⟨.error ⟨cause, position⟩, t⟩ ⟨.error ⟨cause, position'⟩, t'⟩

variable {rule rule' r r' : Rule} {s s' s₁ s₁' t t' : State} {next next' : Expr → Rule}
  {reply reply' : Reply Expr} {lead lead' : Nat} {w g run : List Char}

namespace State.Alike

theorem enter (h : s.Alike lead lead' s') : s.enter.Alike lead lead' s'.enter := by
  refine ⟨h.rest_eq, ?_, h.limit_eq, h.position_eq⟩
  rw [depth_enter, depth_enter, h.depth_eq]

theorem note (lookup : Lookup) (h : s.Alike lead lead' s') :
    (s.note lookup).Alike lead lead' (s'.note lookup) :=
  ⟨h.rest_eq, h.depth_eq, h.limit_eq, h.position_eq⟩

theorem atDepth (depth : Nat) (h : s.Alike lead lead' s') :
    (s.atDepth depth).Alike lead lead' (s'.atDepth depth) :=
  ⟨h.rest_eq, rfl, h.limit_eq, h.position_eq⟩

theorem peek_eq (h : s.Alike lead lead' s') : s'.peek = s.peek := by
  rw [State.peek, State.peek, Cursor.peek, Cursor.peek, h.rest_eq]

theorem next?_eq {α : Type} {read : Char → Option α} (h : s.Alike lead lead' s') :
    s'.next? read = s.next? read := by
  rw [State.next?, h.peek_eq, State.next?]

/-- What is passed on one side is passed on the other. -/
theorem passes (h : s.Alike lead lead' s') (hpass : s.Passes w t) :
    ∃ t', s'.Passes w t' ∧ t.Alike lead lead' t' := by
  have hpass' : s'.Passes w { s' with cursor := ⟨w.reverse ++ s'.cursor.passed, t.cursor.rest⟩ } :=
    ⟨⟨h.rest_eq.trans hpass.cursor.rest_eq, rfl⟩, rfl⟩
  refine ⟨_, hpass', rfl, ?_, ?_, ?_⟩
  · rw [hpass.depth_eq]
    exact h.depth_eq
  · rw [hpass.limit_eq]
    exact h.limit_eq
  · have hposition := h.position_eq
    rw [hpass'.cursor.position_eq, hpass.cursor.position_eq]
    omega

theorem scans {accept : Char → Bool} (h : s.Alike lead lead' s') (hscan : s.Scans accept run t) :
    ∃ t', s'.Scans accept run t' ∧ t.Alike lead lead' t' := by
  obtain ⟨t', hpass, ht⟩ := h.passes hscan.passes
  refine ⟨t', ⟨hpass, hscan.all, ?_⟩, ht⟩
  rw [ht.peek_eq]
  exact hscan.stop

theorem skips (h : s.Alike lead lead' s') (hskip : s.Skips g t) :
    ∃ t', s'.Skips g t' ∧ t.Alike lead lead' t' := by
  obtain ⟨t', hpass, ht⟩ := h.passes hskip.passes
  refine ⟨t', ⟨hpass, hskip.gap, ?_⟩, ht⟩
  rw [ht.peek_eq]
  exact hskip.stop

/-- Texts that are passed to the same text behind them, from places that agree, may be of different
lengths. -/
theorem of_reaches {w' : List Char} (hs : s.Reaches w t) (hs' : s'.Reaches w' t')
    (hrest : t'.cursor.rest = t.cursor.rest) (hposition : s'.cursor.position = s.cursor.position)
    (hdepth : s'.depth = s.depth) (hlimit : s'.limit = s.limit) :
    t.Alike (byteLength w) (byteLength w') t' := by
  refine ⟨hrest, ?_, ?_, ?_⟩
  · rw [hs.depth_eq, hs'.depth_eq, hdepth]
  · rw [hs.limit_eq, hs'.limit_eq, hlimit]
  · rw [hs.cursor.position_eq, hs'.cursor.position_eq, hposition]
    omega

end State.Alike

theorem Rule.alike_operand (level : Level) : (Rule.operand level).Alike (.operand level) := by
  cases level
  · exact .chain .product
  · exact .factor

/-! ## Steps and runs -/

theorem Stops.alike (h : Stops rule s reply) (hr : rule.Alike rule') (hs : s.Alike lead lead' s') :
    ∃ reply', Stops rule' s' reply' ∧ reply.Alike lead lead' reply' := by
  cases h with
  | more hskip hop =>
    obtain ⟨t', hskip', ht⟩ := hs.skips hskip
    cases hr with
    | more _ hvalue => exact ⟨_, .more hskip' (by rwa [ht.next?_eq]), .ok hvalue ht⟩
  | tooDeep hdepth =>
    cases hr
    have hdepth' : s'.limit ≤ s'.depth := by rwa [hs.limit_eq, hs.depth_eq]
    refine ⟨_, .tooDeep hdepth', ?_⟩
    rw [hs.limit_eq]
    exact .error hs.position_eq hs
  | power hskip hcaret =>
    obtain ⟨t', hskip', ht⟩ := hs.skips hskip
    cases hr with
    | openPower hvalue => exact ⟨_, .power hskip' (by rwa [ht.peek_eq]), .ok hvalue ht⟩
  | unexpectedEnd hpeek =>
    cases hr
    exact ⟨_, .unexpectedEnd (by rwa [hs.peek_eq]), .error hs.position_eq hs⟩
  | unexpectedCharacter hpeek hparen hnumeral hlower =>
    cases hr
    exact ⟨_, .unexpectedCharacter (by rwa [hs.peek_eq]) hparen hnumeral hlower,
      .error hs.position_eq hs⟩
  | numeral hscan hrun hn =>
    cases hr
    obtain ⟨t', hscan', ht⟩ := hs.scans hscan
    exact ⟨_, .numeral hscan' hrun hn, .ok rfl ht⟩
  | malformedNumeral hscan hrun hn =>
    cases hr
    obtain ⟨t', hscan', ht⟩ := hs.scans hscan
    exact ⟨_, .malformedNumeral hscan' hrun hn, .error hs.position_eq ht⟩
  | constant hscan hrun hc =>
    cases hr
    obtain ⟨t', hscan', ht⟩ := hs.scans hscan
    exact ⟨_, .constant hscan' hrun hc, .ok rfl (ht.note _)⟩
  | unknownName hscan hrun hname =>
    cases hr
    obtain ⟨t', hscan', ht⟩ := hs.scans hscan
    exact ⟨_, .unknownName hscan' hrun hname, .error hs.position_eq (ht.note _)⟩
  | close hgap hpass =>
    obtain ⟨t', hpass', ht⟩ := hs.passes hpass
    cases hr with
    | close hvalue => exact ⟨_, .close hgap hpass', .ok hvalue ht⟩
  | unclosed hskip hparen =>
    obtain ⟨t', hskip', ht⟩ := hs.skips hskip
    cases hr
    exact ⟨_, .unclosed hskip' (by rwa [ht.peek_eq]), .error ht.position_eq ht⟩
  | done =>
    cases hr with
    | done hvalue => exact ⟨_, .done, .ok hvalue hs⟩

/-- Rules that are alike start the same rule, and go on in the same way with operands of equal
values. -/
theorem Starts.alike (h : Starts rule s r s₁ next) (hr : rule.Alike rule')
    (hs : s.Alike lead lead' s') :
    ∃ s₁' next', Starts rule' s' r s₁' next' ∧ r.Alike r ∧ s₁.Alike lead lead' s₁' ∧
      ∀ e e' : Expr, e.value = e'.value → (next e).Alike (next' e') := by
  cases h with
  | @chain level =>
    cases hr
    exact ⟨_, _, .chain, Rule.alike_operand level, hs, fun _ _ h => .more level h⟩
  | @more level left _ _ _ _ op hgap hpass hop =>
    obtain ⟨t', hpass', ht⟩ := hs.passes hpass
    cases hr with
    | more _ hvalue =>
      refine ⟨_, _, .more hgap hpass' hop, Rule.alike_operand level, ht, fun e e' h => ?_⟩
      refine .more level ?_
      rw [Expr.value, Expr.value, hvalue, h]
  | factor hdepth =>
    cases hr
    have hdepth' : s'.depth < s'.limit := by rwa [hs.depth_eq, hs.limit_eq]
    exact ⟨_, _, .factor hdepth', .openFactor, hs.enter, fun _ _ h => .done h⟩
  | @sign _ _ _ _ sign hgap hpass hsign =>
    cases hr
    obtain ⟨t', hpass', ht⟩ := hs.passes hpass
    refine ⟨_, _, .sign hgap hpass' hsign, .factor, ht, fun e e' h => .done ?_⟩
    rw [Expr.value, Expr.value, h]
  | primary hskip hsign =>
    cases hr
    obtain ⟨t', hskip', ht⟩ := hs.skips hskip
    exact ⟨_, _, .primary hskip' (by rwa [ht.next?_eq]), .openPrimary, ht,
      fun _ _ h => .openPower h⟩
  | power hgap hpass =>
    obtain ⟨t', hpass', ht⟩ := hs.passes hpass
    cases hr with
    | openPower hvalue =>
      refine ⟨_, _, .power hgap hpass', .factor, ht, fun e e' h => .done ?_⟩
      rw [Expr.value, Expr.value, hvalue, h]
  | group hpass =>
    cases hr
    obtain ⟨t', hpass', ht⟩ := hs.passes hpass
    exact ⟨_, _, .group hpass', .chain .sum, ht, fun _ _ h => .close h⟩
  | call hscan hrun hf =>
    cases hr
    obtain ⟨t', hscan', ht⟩ := hs.scans hscan
    refine ⟨_, _, .call hscan' hrun hf, .factor, ht.note _, fun e e' h => .done ?_⟩
    rw [Expr.value, Expr.value, h]

/-- Rules that are alike reply alike. -/
theorem Runs.alike (h : Runs rule s reply) (hr : rule.Alike rule') (hs : s.Alike lead lead' s') :
    ∃ reply', Runs rule' s' reply' ∧ reply.Alike lead lead' reply' := by
  induction h generalizing rule' s' with
  | stop hstop =>
    obtain ⟨reply', hstop', hreply⟩ := hstop.alike hr hs
    exact ⟨reply', .stop hstop', hreply⟩
  | fail hstart hrun ih =>
    obtain ⟨s₁', next', hstart', hr₁, hs₁, -⟩ := hstart.alike hr hs
    obtain ⟨reply', hrun', hreply⟩ := ih hr₁ hs₁
    cases hreply with
    | error hposition hstate =>
      refine ⟨_, .fail hstart' hrun', .error hposition ?_⟩
      rw [hs.depth_eq]
      exact hstate.atDepth _
  | next hstart hrun hnext ih ihnext =>
    obtain ⟨s₁', next', hstart', hr₁, hs₁, hnexts⟩ := hstart.alike hr hs
    obtain ⟨reply₁', hrun', hreply₁⟩ := ih hr₁ hs₁
    cases hreply₁ with
    | ok hvalue hstate =>
      obtain ⟨reply', hnext', hreply⟩ := ihnext (hnexts _ _ hvalue) (hstate.atDepth _)
      rw [← hs.depth_eq] at hnext'
      exact ⟨reply', .next hstart' hrun' hnext', hreply⟩

/-- Around rules that reply alike, rules that go on in the same way reply alike. -/
theorem Starts.alike_around (hstart : Starts rule s r s₁ next)
    (hstart' : Starts rule' s' r' s₁' next') (hdepth : s'.depth = s.depth)
    (hr : ∀ reply, Runs r s₁ reply → ∃ reply', Runs r' s₁' reply' ∧ reply.Alike lead lead' reply')
    (hnexts : ∀ e e' : Expr, e.value = e'.value → (next e).Alike (next' e'))
    (h : Runs rule s reply) : ∃ reply', Runs rule' s' reply' ∧ reply.Alike lead lead' reply' := by
  rcases hstart.runs_cases h with ⟨f, t, hrun, rfl⟩ | ⟨e, t, hrun, hnext⟩
  · obtain ⟨reply', hrun', hreply⟩ := hr _ hrun
    cases hreply with
    | error hposition hstate =>
      refine ⟨_, .fail hstart' hrun', .error hposition ?_⟩
      rw [hdepth]
      exact hstate.atDepth _
  · obtain ⟨reply₁', hrun', hreply₁⟩ := hr _ hrun
    cases hreply₁ with
    | ok hvalue hstate =>
      obtain ⟨reply', hnext', hreply⟩ := hnext.alike (hnexts _ _ hvalue) (hstate.atDepth _)
      rw [← hdepth] at hnext'
      exact ⟨reply', .next hstart' hrun' hnext', hreply⟩

/-! ## Whole texts -/

/-- Parses whose expressions are read alike reply alike. -/
theorem Parses.alike {limit : Nat} {text text' : List Char}
    (hr : ∀ reply, Runs (.chain .sum) (.start limit text) reply →
      ∃ reply', Runs (.chain .sum) (.start limit text') reply' ∧ reply.Alike lead lead' reply')
    (h : Parses limit text reply) :
    ∃ reply', Parses limit text' reply' ∧ reply.Alike lead lead' reply' := by
  cases h with
  | ok hrun hskip hend =>
    obtain ⟨reply', hrun', hreply⟩ := hr _ hrun
    cases hreply with
    | ok hvalue hstate =>
      obtain ⟨t', hskip', ht⟩ := hstate.skips hskip
      exact ⟨_, .ok hrun' hskip' (by rwa [ht.rest_eq]), .ok hvalue ht⟩
  | fail hrun =>
    obtain ⟨reply', hrun', hreply⟩ := hr _ hrun
    cases hreply with
    | error hposition hstate => exact ⟨_, .fail hrun', .error hposition hstate⟩
  | trailing hrun hskip hend =>
    obtain ⟨reply', hrun', hreply⟩ := hr _ hrun
    cases hreply with
    | ok hvalue hstate =>
      obtain ⟨t', hskip', ht⟩ := hstate.skips hskip
      refine ⟨_, .trailing hrun' hskip' (by rwa [ht.rest_eq]), ?_⟩
      rw [ht.rest_eq]
      exact .error ht.position_eq ht

end Calculator.Parser
