import Calculator.Proofs.Lookahead
import Calculator.Proofs.Truthfulness
import Calculator.Proofs.Typing

/-!
# Groups count through their values

Two texts that differ in the content of one group, and in that group only. In front of the group
both are parsed in the same way, because no step passes an opening parenthesis but the one that
starts a group. If the contents are expressions of equal values, both groups are read as a whole,
and behind them the parse goes on with equal values and the same text.

So the runs are kept side by side as twins up to the group, and as runs that are alike from there
on. The limit for open factors is taken out first: it is raised so far that there is room for the
content wherever the group may stand (`Rule.HasRoom`).

## Main definitions

* `Outcome.Agree`: outcomes that differ at most in positions and in the input left over.
* `Rule.HasRoom`: whatever factors are opened in front of the group, its content may be read.
* `Reply.Exchanged`: the replies of runs over both texts, in front of the group or behind it.

## Main results

* `Runs.exchange`: a run in a text with another group in the place of one of equal value.
* `evaluate_group_congr`: all of this for whole texts.
-/

namespace Calculator

/-- Both outcomes are the same value, or failures for the same cause. Where input is left over, it
may be another one. -/
inductive Outcome.Agree : Outcome → Outcome → Prop
  | value (v : Float) : Agree (.ok v) (.ok v)
  | failure (cause : Failure.Cause) (position position' : Nat) :
      Agree (.error ⟨cause, position⟩) (.error ⟨cause, position'⟩)
  | trailing (rest rest' : String) (position position' : Nat) :
      Agree (.error ⟨.trailingInput rest, position⟩) (.error ⟨.trailingInput rest', position'⟩)

namespace Parser

open Grammar

variable {rule r : Rule} {s s' s₁ t : State} {next : Expr → Rule} {reply : Reply Expr}
  {e e' : Expr} {tail : List Char} {most : Nat}

/-! ## Steps in front of a group -/

theorem ne_paren_of_isNumeralChar (c : Char) (h : isNumeralChar c = true) : c ≠ '(' := by
  rintro rfl
  cases h

theorem ne_paren_of_isLower (c : Char) (h : c.isLower = true) : c ≠ '(' := by
  rintro rfl
  cases h

/-- No rule that stops passes an opening parenthesis. -/
theorem Stops.paren_not_mem (h : Stops rule s reply) :
    ∃ v, s.Reaches v reply.state ∧ '(' ∉ v := by
  obtain ⟨v, hv, hall⟩ := h.forall_passed (P := (· ≠ '(')) (by decide) ne_paren_of_isNumeralChar
    ne_paren_of_isLower (by decide)
  exact ⟨v, hv, fun hmem => hall '(' hmem rfl⟩

/-- The only step that passes an opening parenthesis is the one that starts a group. -/
theorem Starts.paren_not_mem (h : Starts rule s r s₁ next) :
    (rule = .openPrimary ∧ s.Passes ['('] s₁) ∨
      ∃ v, s.Reaches v (s₁.atDepth s.depth) ∧ '(' ∉ v := by
  have hop : ∀ {level : Level} {c op}, level.operator? c = some op → c ≠ '(' := by
    intro level c op hc
    obtain ⟨-, rfl⟩ := Level.operator?_eq_some_iff.mp hc
    cases op <;> decide
  have hsign : ∀ {c sign}, Sign.ofChar? c = some sign → c ≠ '(' := by
    intro c sign hc
    obtain rfl := Sign.ofChar?_eq_some_iff.mp hc
    cases sign <;> decide
  refine or_iff_not_imp_left.mpr fun hgroup => ?_
  obtain ⟨v, hv, hall⟩ := h.forall_passed (P := (· ≠ '(')) (by decide) hop hsign
    ne_paren_of_isLower (by decide) fun hrule hpass => absurd ⟨hrule, hpass⟩ hgroup
  exact ⟨v, hv, fun hmem => hall '(' hmem rfl⟩

/-- The tail is still to come. -/
theorem Twin.suffix {tail' : List Char} (h : Twin tail tail' s s') : tail <:+ s.cursor.rest := by
  obtain ⟨w, hw, -⟩ := h
  exact ⟨w, hw.symm⟩

/-- A rule that stops in front of a group does not pass into it. -/
theorem Stops.suffix (h : Stops rule s reply) (hs : '(' :: tail <:+ s.cursor.rest) :
    '(' :: tail <:+ reply.state.cursor.rest := by
  obtain ⟨w, hw⟩ := hs
  obtain ⟨v, hv, hparen⟩ := h.paren_not_mem
  exact suffix_of_not_mem (hv.cursor.rest_eq.symm.trans hw.symm) hparen

/-- A rule that starts another one in front of a group stays there, or it starts the group. -/
theorem Starts.suffix_or (h : Starts rule s r s₁ next) (hs : '(' :: tail <:+ s.cursor.rest) :
    (rule = .openPrimary ∧ s.cursor.rest = '(' :: tail) ∨ '(' :: tail <:+ s₁.cursor.rest := by
  obtain ⟨w, hw⟩ := hs
  rcases h.paren_not_mem with ⟨rfl, hpass⟩ | ⟨v, hv, hparen⟩
  · have hrest : '(' :: s₁.cursor.rest = w ++ '(' :: tail := hpass.cursor.rest_eq.symm.trans hw.symm
    rcases w with _ | ⟨c, w⟩
    · exact Or.inl ⟨rfl, hw.symm⟩
    · exact Or.inr ⟨w, (List.cons.inj hrest).2.symm⟩
  · exact Or.inr (suffix_of_not_mem (hv.cursor.rest_eq.symm.trans hw.symm) hparen)

/-- A rule goes on in the same way with operands of equal values. -/
theorem Starts.alike_next (h : Starts rule s r s₁ next) (hvalue : e.value = e'.value) :
    (next e).Alike (next e') := by
  cases h with
  | @chain level => exact .more level hvalue
  | @more level => exact .more level (by rw [Expr.value, Expr.value, hvalue])
  | factor => exact .done hvalue
  | sign => exact .done (by rw [Expr.value, Expr.value, hvalue])
  | primary => exact .openPower hvalue
  | power => exact .done (by rw [Expr.value, Expr.value, hvalue])
  | group => exact .close hvalue
  | call => exact .done (by rw [Expr.value, Expr.value, hvalue])

/-! ## Room for the content of the group -/

/-- Whatever factors a rule opens in front of the text `tail`, `most` more may be opened there. -/
def Rule.HasRoom (most : Nat) (tail : List Char) (rule : Rule) (s : State) : Prop :=
  s.depth + solidCount s.cursor.rest + most < s.limit + rule.debt + solidCount tail

theorem Starts.hasRoom (h : Starts rule s r s₁ next) (hs : rule.HasRoom most tail s) :
    r.HasRoom most tail s₁ := by
  obtain ⟨v, hv, hdebt⟩ := h.debt_le
  have hrest : s.cursor.rest = v ++ s₁.cursor.rest := hv.cursor.rest_eq
  unfold Rule.HasRoom at hs ⊢
  rw [hrest, solidCount_append] at hs
  rw [h.limit_eq]
  omega

theorem Starts.hasRoom_next (h : Starts rule s r s₁ next) (hrun : Runs r s₁ ⟨.ok e, t⟩)
    (hs : rule.HasRoom most tail s) : (next e).HasRoom most tail (t.atDepth s.depth) := by
  obtain ⟨v, hv⟩ := h.reaches
  obtain ⟨w, hw⟩ := hrun.reaches
  have hrest : s.cursor.rest = (v ++ w) ++ t.cursor.rest := (hv.trans hw.atDepth).cursor.rest_eq
  have hdebt := h.debt_next e
  unfold Rule.HasRoom at hs ⊢
  rw [hrest, solidCount_append] at hs
  rw [h.limit_next hrun]
  show s.depth + solidCount t.cursor.rest + most < _
  omega

/-! ## One group in the place of another -/

/-- A group in front of the text `behind`. -/
def groupText (content behind : List Char) : List Char :=
  '(' :: (content ++ [')']) ++ behind

/-- The replies of runs in texts that differ in one group. Both have come to places in front of
the group and say the same; or they have come to places behind it and are alike. -/
inductive Reply.Exchanged (tail tail' : List Char) : Reply Expr → Reply Expr → Prop
  | ahead {result : Except Failure Expr} {t t' : State} (htwin : Twin tail tail' t t') :
      Exchanged tail tail' ⟨result, t⟩ ⟨result, t'⟩
  | behind {lead lead' : Nat} {reply reply' : Reply Expr} (halike : reply.Alike lead lead' reply') :
      Exchanged tail tail' reply reply'

section Exchange

variable {v v' b : List Char} (hv : Completes .expression e v) (hv' : Completes .expression e' v')
  (hvalue : e.value = e'.value) (hmost : e.nest ≤ most) (hmost' : e'.nest ≤ most)

include hv hv' hvalue hmost hmost'

/-- Where one group comes next in one text and the other group in the other, the replies are
alike. -/
theorem Runs.exchange_group (h : Runs .openPrimary s reply)
    (hs : Twin (groupText v b) (groupText v' b) s s') (hrest : s.cursor.rest = groupText v b)
    (hroom : Rule.openPrimary.HasRoom most (groupText v b) s) :
    ∃ reply', Runs .openPrimary s' reply' ∧
      reply.Exchanged (groupText v b) (groupText v' b) reply' := by
  have hdepth : s.depth + most ≤ s.limit := by
    have hroom : _ < _ + 1 + _ := hroom
    rw [hrest] at hroom
    omega
  have hrest' : s'.cursor.rest = groupText v' b := by
    obtain ⟨w, hw, rfl⟩ := hs
    obtain rfl : w = [] := List.append_left_eq_self.mp (hw.symm.trans hrest)
    rfl
  obtain ⟨t, ht, htrest⟩ := State.exists_passes hrest
  obtain ⟨t', ht', htrest'⟩ := State.exists_passes hrest'
  have hdepth' : s'.depth + e'.nest ≤ s'.limit := by
    rw [hs.depth_eq, hs.limit_eq]
    omega
  obtain ⟨-, u, hu, hurest, hrun⟩ := runs_openPrimary_group hv ht (by omega)
  obtain ⟨-, u', hu', hurest', hrun'⟩ := runs_openPrimary_group hv' ht' hdepth'
  have hstate := State.Alike.of_reaches hu hu' (by rw [hurest', htrest', hurest, htrest])
    hs.position_eq hs.depth_eq hs.limit_eq
  rw [h.unique hrun]
  exact ⟨_, hrun', .behind (.ok hvalue hstate)⟩

/-- A run in a text that has another group, of equal value, in the place of one. -/
theorem Runs.exchange (h : Runs rule s reply)
    (hs : Twin (groupText v b) (groupText v' b) s s')
    (hroom : rule.HasRoom most (groupText v b) s) :
    ∃ reply', Runs rule s' reply' ∧ reply.Exchanged (groupText v b) (groupText v' b) reply' := by
  have hhead : (groupText v' b).head? = (groupText v b).head? := rfl
  induction h generalizing s' with
  | stop hstop =>
    have hsuffix := hstop.suffix hs.suffix
    obtain ⟨t', hstop', htwin⟩ := hstop.twin hhead hs hsuffix
    exact ⟨_, .stop hstop', .ahead htwin⟩
  | fail hstart hrun ih =>
    rcases hstart.suffix_or hs.suffix with ⟨rfl, hrest⟩ | hsuffix
    · exact Runs.exchange_group hv hv' hvalue hmost hmost' (.fail hstart hrun) hs hrest hroom
    · obtain ⟨s₁', hstart', hs₁'⟩ := hstart.twin hhead hs hsuffix
      obtain ⟨reply', hrun', hreply⟩ := ih hs₁' (hstart.hasRoom hroom)
      rw [← hs.depth_eq]
      cases hreply with
      | ahead htwin => exact ⟨_, .fail hstart' hrun', .ahead (htwin.atDepth _)⟩
      | behind halike =>
        cases halike with
        | error hposition hstate =>
          exact ⟨_, .fail hstart' hrun', .behind (.error hposition (hstate.atDepth _))⟩
  | next hstart hrun hnext ih ihnext =>
    rcases hstart.suffix_or hs.suffix with ⟨rfl, hrest⟩ | hsuffix
    · exact Runs.exchange_group hv hv' hvalue hmost hmost' (.next hstart hrun hnext) hs hrest hroom
    · obtain ⟨s₁', hstart', hs₁'⟩ := hstart.twin hhead hs hsuffix
      obtain ⟨reply₁', hrun', hreply₁⟩ := ih hs₁' (hstart.hasRoom hroom)
      cases hreply₁ with
      -- The group is still to come, so the rule goes on with the same operand.
      | ahead htwin =>
        obtain ⟨reply', hnext', hreply⟩ :=
          ihnext (htwin.atDepth _) (hstart.hasRoom_next hrun hroom)
        rw [← hs.depth_eq] at hnext'
        exact ⟨reply', .next hstart' hrun' hnext', hreply⟩
      -- The group is part of the operand.
      | behind halike =>
        cases halike with
        | ok hequal hstate =>
          obtain ⟨reply', hnext', hreply⟩ :=
            hnext.alike (hstart.alike_next hequal) (hstate.atDepth _)
          rw [← hs.depth_eq] at hnext'
          exact ⟨reply', .next hstart' hrun' hnext', .behind hreply⟩

/-- The parses of two texts that differ in one group agree. -/
theorem Parses.exchange {limit : Nat} {a : List Char} (h : Parses limit (a ++ groupText v b) reply)
    (hroom : solidCount a + most < limit) :
    ∃ reply', Parses limit (a ++ groupText v' b) reply' ∧
      Outcome.Agree (reply.result.map Expr.value) (reply'.result.map Expr.value) := by
  have hhead : (groupText v' b).head? = (groupText v b).head? := rfl
  have hstart : Twin (groupText v b) (groupText v' b) (.start limit (a ++ groupText v b))
      (.start limit (a ++ groupText v' b)) := Twin.start rfl
  have hroom : (Rule.chain .sum).HasRoom most (groupText v b)
      (.start limit (a ++ groupText v b)) := by
    show 0 + solidCount (a ++ groupText v b) + most < limit + 0 + _
    rw [solidCount_append]
    omega
  cases h with
  | ok hrun hskip hend =>
    obtain ⟨reply', hrun', hreply⟩ := hrun.exchange hv hv' hvalue hmost hmost' hstart hroom
    cases hreply with
    | ahead htwin =>
      -- The group has not been passed, so the text has not come to its end.
      obtain ⟨w, hw, -⟩ := htwin
      have hsuffix := suffix_of_not_mem (hskip.passes.cursor.rest_eq.symm.trans hw)
        (hskip.gap.not_mem (by decide))
      rw [hend] at hsuffix
      cases List.suffix_nil.mp hsuffix
    | behind halike =>
      cases halike with
      | ok hequal hstate =>
        obtain ⟨t', hskip', ht⟩ := hstate.skips hskip
        refine ⟨_, .ok hrun' hskip' (by rwa [ht.rest_eq]), ?_⟩
        show Outcome.Agree (.ok _) (.ok _)
        rw [hequal]
        exact .value _
  | fail hrun =>
    obtain ⟨reply', hrun', hreply⟩ := hrun.exchange hv hv' hvalue hmost hmost' hstart hroom
    cases hreply with
    | ahead => exact ⟨_, .fail hrun', .failure _ _ _⟩
    | behind halike =>
      cases halike with
      | error => exact ⟨_, .fail hrun', .failure _ _ _⟩
  | trailing hrun hskip hend =>
    obtain ⟨reply', hrun', hreply⟩ := hrun.exchange hv hv' hvalue hmost hmost' hstart hroom
    cases hreply with
    | ahead htwin =>
      obtain ⟨w, hw, -⟩ := id htwin
      have hsuffix := suffix_of_not_mem (hskip.passes.cursor.rest_eq.symm.trans hw)
        (hskip.gap.not_mem (by decide))
      obtain ⟨t', hskip', x, -, rfl⟩ := htwin.skips hhead hskip hsuffix
      refine ⟨_, .trailing hrun' hskip' ?_, .trailing _ _ _ _⟩
      simp [groupText]
    | behind halike =>
      cases halike with
      | ok hequal hstate =>
        obtain ⟨t', hskip', ht⟩ := hstate.skips hskip
        exact ⟨_, .trailing hrun' hskip' (by rwa [ht.rest_eq]), .trailing _ _ _ _⟩

end Exchange

end Parser

open Calculator.Parser Grammar

/-- A text that is not nested too deeply has the same outcome under every higher limit. -/
theorem evaluate_of_le {d d' : Nat} {text : String}
    (h : ∀ limit position, evaluate ⟨d⟩ text ≠ .error ⟨.nestingTooDeep limit, position⟩)
    (hle : d ≤ d') : evaluate ⟨d'⟩ text = evaluate ⟨d⟩ text := by
  have hdeep : ¬ (parse d text.toList).TooDeep := by
    intro hdeep
    refine h d (parse d text.toList).state.cursor.position ?_
    show (parse d text.toList).result.map Expr.value = _
    rw [hdeep.result_eq]
    rfl
  show (parse d' text.toList).result.map Expr.value = (parse d text.toList).result.map Expr.value
  rw [parse_result_of_le hdeep hle]

/-- A group counts through its value only. Contents of the same value may be exchanged between any
two texts `before` and `behind`: the outcomes agree, unless one of them is too deep a nesting. -/
theorem evaluate_group_congr {limit : Nat} {s s' : String} {v : Float}
    (hs : evaluate ⟨limit⟩ s = .ok v) (hs' : evaluate ⟨limit⟩ s' = .ok v) (before behind : String)
    (hdeep : ∀ most position, evaluate ⟨limit⟩ (before ++ "(" ++ s ++ ")" ++ behind) ≠
      .error ⟨.nestingTooDeep most, position⟩)
    (hdeep' : ∀ most position, evaluate ⟨limit⟩ (before ++ "(" ++ s' ++ ")" ++ behind) ≠
      .error ⟨.nestingTooDeep most, position⟩) :
    Outcome.Agree (evaluate ⟨limit⟩ (before ++ "(" ++ s ++ ")" ++ behind))
      (evaluate ⟨limit⟩ (before ++ "(" ++ s' ++ ")" ++ behind)) := by
  obtain ⟨e, hw, hnest, hvalue⟩ := exists_completes_of_evaluate hs
  obtain ⟨e', hw', hnest', hvalue'⟩ := exists_completes_of_evaluate hs'
  -- The group is in front of no more factors than there are characters in front of it.
  rw [← evaluate_of_le hdeep (limit.le_add_right (solidCount before.toList + 1)),
    ← evaluate_of_le hdeep' (limit.le_add_right (solidCount before.toList + 1))]
  have htext : ∀ content : String, (before ++ "(" ++ content ++ ")" ++ behind).toList =
      before.toList ++ groupText content.toList behind.toList := by
    intro content
    simp [groupText]
  have hparse := parses_parse (limit + (solidCount before.toList + 1))
    (before.toList ++ groupText s.toList behind.toList)
  obtain ⟨reply', hparse', hagree⟩ :=
    hparse.exchange hw hw' (hvalue.trans hvalue'.symm) hnest hnest' (by omega)
  show Outcome.Agree ((parse _ _).result.map Expr.value) ((parse _ _).result.map Expr.value)
  rw [htext, htext, hparse'.parse_eq]
  exact hagree

/-- A sum and its value, in front of a name that is unknown. Both texts are refused for that name,
at different places. -/
theorem evaluate_group_congr_sum :
    evaluate ⟨3⟩ "1+2" = .ok (Float.ofBits 0x4008000000000000) ∧
      evaluate ⟨3⟩ " 3" = .ok (Float.ofBits 0x4008000000000000) ∧
      evaluate ⟨3⟩ "5-(1+2)*x" = .error ⟨.unknownName "x", 8⟩ ∧
      evaluate ⟨3⟩ "5-( 3)*x" = .error ⟨.unknownName "x", 7⟩ ∧
      Outcome.Agree (evaluate ⟨3⟩ ("5-" ++ "(" ++ "1+2" ++ ")" ++ "*x"))
        (evaluate ⟨3⟩ ("5-" ++ "(" ++ " 3" ++ ")" ++ "*x")) := by
  have hs : evaluate ⟨3⟩ "1+2" = .ok (Float.ofBits 0x4008000000000000) := by decide +kernel
  have hs' : evaluate ⟨3⟩ " 3" = .ok (Float.ofBits 0x4008000000000000) := by decide +kernel
  have h : evaluate ⟨3⟩ "5-(1+2)*x" = .error ⟨.unknownName "x", 8⟩ := by decide +kernel
  have h' : evaluate ⟨3⟩ "5-( 3)*x" = .error ⟨.unknownName "x", 7⟩ := by decide +kernel
  refine ⟨hs, hs', h, h', evaluate_group_congr hs hs' "5-" "*x" ?_ ?_⟩
  · intro most position hdeep
    cases h.symm.trans hdeep
  · intro most position hdeep
    cases h'.symm.trans hdeep

end Calculator
