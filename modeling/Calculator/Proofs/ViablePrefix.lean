import Calculator.Proofs.Completeness
import Calculator.Proofs.Limits
import Calculator.Proofs.Lookahead

/-!
# Failures are detected early

A failure is never detected too late: the text in front of it can still be completed to an
expression. It is not detected too early either: a character that the grammar does not allow at the
place of the failure cannot be made good by any text behind it.

The completion is put together from the rules that are going on when a run fails. Each of them is
completed by what the rule started by it is completed by, and by a closing parenthesis if it is a
group.

## Main definitions

* `Rule.Completion`: a text that completes a rule behind a part of what comes next.
* `Failure.Cause.Tells`: what a cause says about the text behind the place of the failure.

## Main results

* `Runs.exists_completion`: whatever a run fails at, its rule can be completed in front of it.
* `evaluate_error_earliest`: every failure of an evaluation is detected as early as can be.
-/

namespace Calculator

/-- The number of open factors within which a text can be completed in front of a failure. -/
def Failure.room (f : Failure) (limit : Nat) : Nat :=
  if f.cause.kind = .resource then limit + 1 else limit

/-- What a cause says about the text behind the place of the failure. -/
def Failure.Cause.Tells : Failure.Cause → List Char → Prop
  | .unexpectedCharacter found, after => after.head? = some found
  | .unexpectedEnd, after => after = []
  | .trailingInput rest, after => rest.toList = after ∧ after ≠ []
  | _, _ => True

/-- Only a text that breaks the grammar tells what is behind the place of its failure. -/
theorem Failure.Cause.tells_of_kind_ne {cause : Failure.Cause} (h : cause.kind ≠ .grammar)
    (after : List Char) : cause.Tells after := by
  cases cause with
  | unexpectedCharacter | unexpectedEnd | unclosedGroup | trailingInput => exact absurd rfl h
  | unknownName | malformedNumeral | nestingTooDeep => trivial

theorem Failure.le_room (f : Failure) (limit : Nat) : limit ≤ f.room limit := by
  unfold Failure.room
  split <;> omega

/-- A failure of the grammar is detected at the place that was reached. -/
theorem Failure.reach_eq_position {f : Failure} (h : f.cause.kind = .grammar) :
    f.reach = f.position := by
  obtain ⟨cause, position⟩ := f
  cases cause with
  | unexpectedCharacter | unexpectedEnd | unclosedGroup | trailingInput => rfl
  | unknownName | malformedNumeral | nestingTooDeep => cases h

theorem Failure.kind_withRest (rest : String) (f : Failure) :
    (f.withRest rest).cause.kind = f.cause.kind := by
  obtain ⟨cause, position⟩ := f
  cases cause <;> rfl

namespace Parser

open Grammar

variable {rule r : Rule} {s s₁ t : State} {next : Expr → Rule} {e e' : Expr} {f : Failure}
  {w z g : List Char} {limit : Nat}

/-- Behind the part `w` of what comes next, the text `z` completes a rule, which then makes `e`. The
text `z` goes on with no name. -/
structure Rule.Completion (rule : Rule) (s : State) (limit : Nat) (w z : List Char) (e : Expr) :
    Prop where
  /-- The part comes next. -/
  prefix_rest : w <+: s.cursor.rest
  /-- The completion has no letters. -/
  plain : ∀ c ∈ z, c.isLower = false
  /-- Both texts together are what the rule reads. -/
  makes : rule.Makes (w ++ z) e
  /-- They are nested no deeper than is allowed. -/
  fits : rule.Fits s.depth limit e

/-- The number put where an operand is missing. -/
theorem reads_one : Reads .atom ['1'] (.numeral ⟨1, 0⟩) :=
  .numeral (by simp [isNumeralChar]) (by decide)

/-! ## Completions of steps -/

/-- A step that fails can be completed in front of the failure: by an operand, or by the parenthesis
that closes a group. -/
theorem Stops.exists_completion (h : Stops rule s ⟨.error f, t⟩) (hdepth : s.depth ≤ s.limit) :
    ∃ w z e, rule.Completion s (f.room s.limit) w z e ∧
      f.position = s.cursor.position + byteLength w := by
  have hone : ∀ c ∈ ['1'], c.isLower = false := by simp
  cases h with
  | tooDeep =>
    exact ⟨[], ['1'], _,
      ⟨List.nil_prefix, hone, reads_one.atom, Nat.add_le_add_right hdepth 1⟩, rfl⟩
  | unexpectedEnd | unexpectedCharacter | malformedNumeral | unknownName =>
    exact ⟨[], ['1'], _,
      ⟨List.nil_prefix, hone, Or.inl reads_one, Nat.add_le_add_right hdepth 1⟩, rfl⟩
  -- The group is as deep as the factor that it stands in, so closing it opens none.
  | @unclosed inner _ _ g hskip =>
    refine ⟨g, [')'], .group inner, ⟨⟨_, hskip.passes.cursor.rest_eq.symm⟩, by simp,
      ⟨rfl, g, hskip.gap, rfl⟩, fun hinner => ?_⟩, hskip.passes.cursor.position_eq⟩
    have hinner : s.depth + inner.nest ≤ s.limit := hinner
    show s.depth + (1 + inner.nest) ≤ s.limit + 1
    omega

/-- A rule that goes on behind another one needs at most a closing parenthesis. -/
theorem Starts.closes (h : Starts rule s r s₁ next) (e : Expr) :
    ∃ x e', (∀ c ∈ x, c.isLower = false) ∧ (next e).Makes x e' ∧
      (r = .openPrimary → e' = e ∧ Gap x) ∧ ∀ depth limit, (next e).Fits depth limit e' := by
  cases h with
  | @chain level =>
    refine ⟨[], e, by simp, fun v hv => by simpa using hv, fun hr => ?_, fun _ _ => id⟩
    cases level <;> cases hr
  | @more level left _ _ _ _ op =>
    refine ⟨[], .binary op left e, by simp, fun v hv => by simpa using hv, fun hr => ?_,
      fun _ _ => id⟩
    cases level <;> cases hr
  | factor | sign | power | call =>
    exact ⟨[], _, by simp, ⟨rfl, rfl⟩, nofun, fun _ _ => rfl⟩
  | primary => exact ⟨[], e, by simp, Or.inl ⟨rfl, .nil⟩, fun _ => ⟨rfl, .nil⟩, fun _ _ => id⟩
  -- Only a group has something left to be passed.
  | group =>
    refine ⟨[')'], .group e, by simp, ⟨rfl, [], .nil, rfl⟩, nofun, fun depth limit hinner => ?_⟩
    have hinner : depth + e.nest ≤ limit := hinner
    show depth + (1 + e.nest) ≤ limit + 1
    omega

/-- What completes the rule that is started completes the rule that starts it, up to a closing
parenthesis. -/
theorem Starts.completion (h : Starts rule s r s₁ next) (hc : r.Completion s₁ limit w z e) :
    ∃ v x e', s.Reaches v (s₁.atDepth s.depth) ∧ rule.Completion s limit (v ++ w) (z ++ x) e' := by
  obtain ⟨v, hv, hmakes⟩ := h.makes
  obtain ⟨x, e', hplain, hx, hprimary, hfits⟩ := h.closes e
  refine ⟨v, x, e', hv, ⟨?_, ?_, ?_, h.fits hc.fits (hfits _ _)⟩⟩
  · rw [hv.cursor.rest_eq]
    exact (List.prefix_append_right_inj v).mpr hc.prefix_rest
  · intro c hmem
    rcases List.mem_append.mp hmem with hmem | hmem
    · exact hc.plain c hmem
    · exact hplain c hmem
  · have hmakes := hmakes w z x e e' hc.prefix_rest hc.plain hc.makes hx fun hr _ => hprimary hr
    simpa using hmakes

/-- What completes a rule that goes on behind another one completes the rule that has started both.
-/
theorem Starts.completion_next (h : Starts rule s r s₁ next) (hrun : Runs r s₁ ⟨.ok e, t⟩)
    (hcall : r = .openPrimary → ¬ IsCall e) (hdepth : s.depth ≤ s.limit) (hle : s.limit ≤ limit)
    (hc : (next e).Completion (t.atDepth s.depth) limit w z e') :
    ∃ v, s.Reaches v (t.atDepth s.depth) ∧ rule.Completion s limit (v ++ w) z e' := by
  obtain ⟨v, hv, hmakes⟩ := h.makes
  obtain ⟨u, hu, hr⟩ := hrun.makes
  have hreach := hv.trans hu.atDepth
  have hdepth₁ := h.depth_le hdepth
  rw [h.limit_eq] at hdepth₁
  -- Under the higher limit the run in between is the same, and what it finds fits.
  have hraised := hrun.withLimit (d := limit) (by rwa [h.limit_eq]) Reply.not_tooDeep_ok
  have hfits : r.Fits s₁.depth limit e := hraised.fits (Nat.le_trans hdepth₁ hle)
  refine ⟨v ++ u, hreach, ⟨?_, hc.plain, ?_, h.fits hfits hc.fits⟩⟩
  · rw [hreach.cursor.rest_eq]
    exact (List.prefix_append_right_inj _).mpr hc.prefix_rest
  · have hprefix : u <+: s₁.cursor.rest := ⟨_, hu.cursor.rest_eq.symm⟩
    have hmakes := hmakes u [] (w ++ z) e e' hprefix (by simp) (by simpa using hr) hc.makes
      fun hr hcalls => absurd hcalls (hcall hr)
    simpa using hmakes

/-! ## Completions of runs -/

/-- Whatever a run fails at, its rule can be completed in front of the failure. -/
theorem Runs.exists_completion (h : Runs rule s ⟨.error f, t⟩) (hdepth : s.depth ≤ s.limit) :
    ∃ w z e, rule.Completion s (f.room s.limit) w z e ∧
      f.position = s.cursor.position + byteLength w := by
  induction h using Runs.error_induction with
  | stop hstop => exact hstop.exists_completion hdepth
  | @fail _ _ s s₁ _ _ hstart _ ih =>
    obtain ⟨w, z, e, hc, hposition⟩ := ih (hstart.depth_le hdepth)
    rw [hstart.limit_eq] at hc
    obtain ⟨v, x, e', hv, hcompletion⟩ := hstart.completion hc
    have hs₁ : s₁.cursor.position = s.cursor.position + byteLength v := hv.cursor.position_eq
    refine ⟨v ++ w, z ++ x, e', hcompletion, ?_⟩
    rw [hposition, hs₁, byteLength_append]
    omega
  | @next _ r s _ _ _ _ e hstart hrun hnext ih =>
    have hlimit := hstart.limit_next hrun
    obtain ⟨w, z, e', hc, hposition⟩ := ih (by rwa [hlimit])
    rw [hlimit] at hc
    -- A function that has been applied is a whole factor, behind which nothing fails.
    have hcall : r = .openPrimary → ¬ IsCall e := by
      intro hr hcall
      cases hstart.of_isCall hr hrun hcall hnext
    obtain ⟨v, hv, hcompletion⟩ :=
      hstart.completion_next hrun hcall hdepth (f.le_room s.limit) hc
    refine ⟨v ++ w, z, e', hcompletion, ?_⟩
    rw [hposition, hv.cursor.position_eq, byteLength_append]
    omega

/-! ## Characters that cannot come next -/

theorem Stops.tells (h : Stops rule s ⟨.error f, t⟩) : f.cause.Tells t.cursor.rest := by
  cases h with
  | unexpectedEnd hpeek => exact List.head?_eq_none_iff.mp hpeek
  | unexpectedCharacter hpeek => exact hpeek
  | tooDeep | malformedNumeral | unknownName | unclosed => trivial

/-- A failing parse tells what is behind the place where it has come to. -/
theorem Parses.tells {text : List Char} (h : Parses limit text ⟨.error f, t⟩) :
    f.cause.Tells t.cursor.rest := by
  cases h with
  | fail hrun =>
    obtain ⟨r, u, v, hstop, -, rfl⟩ := hrun.exists_stops
    exact hstop.tells
  | trailing _ _ hend => exact ⟨String.toList_ofList, hend⟩

/-- Behind a character that the grammar does not allow where it stands, no text is an expression,
whatever the limit. -/
theorem Parses.hopeless {text : List Char} {c : Char} {d : Nat}
    (h : Parses limit text ⟨.error f, t⟩) (hkind : f.cause.kind = .grammar)
    (htext : text = w ++ t.cursor.rest) (hc : t.cursor.rest.head? = some c) (z : List Char)
    (e : Expr) : (parse d (w ++ c :: z)).result ≠ .ok e := by
  intro hok
  have hhead : (c :: z).head? = t.cursor.rest.head? := by rw [hc, List.head?_cons]
  obtain ⟨t', hfail⟩ := h.twin htext hhead
  -- The other text fails at the same place, and no limit makes both of a failure and a success.
  have hresult := hfail.result_eq (parses_parse d (w ++ c :: z)) ?_ ?_
  · rw [hok] at hresult
    cases hresult
  · rintro ⟨f', hf', hdeep⟩
    cases hf'
    rw [f.kind_withRest, hkind] at hdeep
    cases hdeep
  · rintro ⟨f', hf', -⟩
    rw [hok] at hf'
    cases hf'

/-! ## Whole texts -/

/-- In front of a failure, the text can be completed to an expression. -/
theorem Parses.exists_completion {text : List Char} (h : Parses limit text ⟨.error f, t⟩) :
    ∃ before after z e, text = before ++ after ∧ byteLength before = f.position ∧
      (parse (f.room limit) (before ++ z)).result = .ok e := by
  have hstart : (State.start limit text).cursor.position = 0 := rfl
  cases h with
  | fail hrun =>
    obtain ⟨w, z, e, ⟨⟨after, hafter⟩, -, ⟨T, rfl, hspells⟩, hfits⟩, hposition⟩ :=
      hrun.exists_completion (Nat.zero_le limit)
    have hfits : 0 + T.expr.nest ≤ f.room limit := hfits
    rw [T.nest_expr, Nat.zero_add] at hfits
    rw [hstart, Nat.zero_add] at hposition
    exact ⟨w, after, z, T.expr, hafter.symm, hposition.symm, parse_of_spells hspells hfits⟩
  -- Where input is left over, what is in front of it is an expression already.
  | trailing hrun hskip =>
    obtain ⟨w, hw, hreads⟩ := hrun.makes
    have hfits : 0 + _ ≤ limit := hrun.fits (Nat.zero_le limit)
    have hpass := hw.cursor.trans hskip.passes.cursor
    obtain ⟨T, rfl, hspells⟩ := Reads.append_gap hreads hskip.gap
    rw [T.nest_expr, Nat.zero_add] at hfits
    refine ⟨_, _, [], T.expr, hpass.rest_eq, ?_, ?_⟩
    · rw [hpass.position_eq, hstart, Nat.zero_add]
    · rw [List.append_nil]
      exact parse_of_spells hspells hfits

/-- Where a failing parse can be completed is where it has come to, if the grammar is broken. -/
theorem Parses.after_eq {text before after : List Char} (h : Parses limit text ⟨.error f, t⟩)
    (hkind : f.cause.kind = .grammar) (htext : text = before ++ after)
    (hposition : byteLength before = f.position) : after = t.cursor.rest := by
  obtain ⟨w, hw, hreach⟩ := h.exists_passed
  refine (append_inj_of_byteLength (htext.symm.trans hw) ?_).2
  rw [hposition, hreach, Failure.reach_eq_position hkind]

end Parser

open Calculator.Parser

/-- Every failure is detected as early as can be. The text in front of it can be completed to an
expression, within the same limit, or within the next one if that limit was exceeded. If the text
breaks the grammar, no text behind the next character makes good for that character, whatever the
limit. -/
theorem evaluate_error_earliest {limit : Nat} {text : String} {f : Failure}
    (h : evaluate ⟨limit⟩ text = .error f) :
    ∃ before after : String, text = before ++ after ∧ before.utf8ByteSize = f.position ∧
      (∃ (rest : String) (v : Float), evaluate ⟨f.room limit⟩ (before ++ rest) = .ok v) ∧
      f.cause.Tells after.toList ∧
      (f.cause.kind = .grammar → ∀ c ∈ after.toList.head?, ∀ (rest : String) (d : Nat) (v : Float),
        evaluate ⟨d⟩ (before ++ String.singleton c ++ rest) ≠ .ok v) := by
  obtain ⟨t, hparse⟩ := evaluate_eq_error_iff.mp h
  obtain ⟨before, after, z, e, htext, hposition, hok⟩ := hparse.exists_completion
  refine ⟨String.ofList before, String.ofList after, ?_, ?_, ⟨String.ofList z, ?_⟩, ?_,
    fun hkind c hc rest d v hv => ?_⟩
  · rw [← String.ofList_append, ← htext, String.ofList_toList]
  · rw [utf8ByteSize_ofList, hposition]
  · refine exists_evaluate_eq_ok_iff.mpr ⟨e, ?_⟩
    rwa [String.toList_append, String.toList_ofList, String.toList_ofList]
  · rw [String.toList_ofList]
    by_cases hkind : f.cause.kind = .grammar
    · rw [hparse.after_eq hkind htext hposition]
      exact hparse.tells
    · exact Failure.Cause.tells_of_kind_ne hkind after
  · rw [String.toList_ofList] at hc
    obtain rfl := hparse.after_eq hkind htext hposition
    obtain ⟨e', he'⟩ := exists_evaluate_eq_ok_iff.mp ⟨v, hv⟩
    refine hparse.hopeless (d := d) hkind htext hc rest.toList e' ?_
    simpa using he'

/-- A closing parenthesis where the argument of a function should stand. In front of it an operator,
a group, a sign and the function are pending, which an argument and another parenthesis complete;
the parenthesis itself cannot be made good. -/
theorem evaluate_error_earliest_parenthesis :
    evaluate ⟨4⟩ "2*(-sin )" = .error ⟨.unexpectedCharacter ')', 8⟩ ∧
      ∃ before after : String, "2*(-sin )" = before ++ after ∧ before.utf8ByteSize = 8 ∧
        (∃ (rest : String) (v : Float), evaluate ⟨4⟩ (before ++ rest) = .ok v) ∧
        after.toList.head? = some ')' ∧
        ∀ c ∈ after.toList.head?, ∀ (rest : String) (d : Nat) (v : Float),
          evaluate ⟨d⟩ (before ++ String.singleton c ++ rest) ≠ .ok v := by
  have h : evaluate ⟨4⟩ "2*(-sin )" = .error ⟨.unexpectedCharacter ')', 8⟩ := by decide +kernel
  obtain ⟨before, after, htext, hposition, hok, htells, hwrong⟩ := evaluate_error_earliest h
  exact ⟨h, before, after, htext, hposition, hok, htells, hwrong rfl⟩

end Calculator
