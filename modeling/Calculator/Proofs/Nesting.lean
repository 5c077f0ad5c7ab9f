import Calculator.Proofs.Openings
import Mathlib.Data.Nat.Find

/-!
# The nesting limit

How the outcome of an evaluation depends on the number of factors that may be open at once. From
some limit on, the outcome is always the same; below it, too deep a nesting is reported, and the
higher the limit, the later. A factor is open only behind a character passed for it, so the limit
from which on nothing changes is no more than the number of characters.

## Main definitions

* `Rule.debt`: the character that an open factor has to pass before another factor is opened in it.

## Main results

* `Runs.limit_le`: a run that opens too many factors has passed a character for each.
* `Runs.position_lt`: it comes further under a higher limit.
* `parse_result_of_le`: from some limit on, nothing changes.
* `evaluate_nesting_threshold`: all of this for whole texts.
-/

namespace Calculator.Parser

variable {rule r : Rule} {s s₁ t : State} {next : Expr → Rule} {e e' : Expr} {reply : Reply Expr}
  {f : Failure} {v w g run : List Char}

/-! ## One character for each factor -/

/-- A rule within an open factor owes a character: it passes one before another factor is opened. -/
def Rule.debt : Rule → Nat
  | .chain _ => 0
  | .more _ _ => 0
  | .factor => 0
  -- The rest is within a factor that has been opened.
  | _ => 1

theorem solidCount_pos_of_mem {c : Char} (hc : c ∈ w) (hspace : c ≠ ' ') : 0 < solidCount w :=
  List.countP_pos_iff.mpr ⟨c, hc, by simpa using hspace⟩

/-- A name holds more than spaces. -/
theorem State.Scans.solidCount_pos (h : s.Scans Char.isLower run t) (hrun : run ≠ []) :
    0 < solidCount run := by
  obtain ⟨c, hc⟩ := List.exists_mem_of_ne_nil run hrun
  refine solidCount_pos_of_mem hc ?_
  rintro rfl
  exact absurd (h.all _ hc) (by decide)

/-- A factor that is opened, or the character passed in front of it, pays for the debt. -/
theorem Starts.debt_le (h : Starts rule s r s₁ next) :
    ∃ v, s.Reaches v (s₁.atDepth s.depth) ∧
      s₁.depth + rule.debt ≤ s.depth + r.debt + solidCount v := by
  cases h with
  | @chain level =>
    exact ⟨[], .refl _, by cases level <;> simp [Rule.operand, Rule.debt]⟩
  | @more level _ _ _ _ _ _ _ hpass =>
    refine ⟨_, hpass.reaches.restore, ?_⟩
    rw [hpass.depth_eq]
    cases level <;> simp [Rule.operand, Rule.debt]
  -- Opening a factor counts in the depth and is owed.
  | factor => exact ⟨[], .refl _, by simp [Rule.debt]⟩
  | sign _ hpass hsign =>
    refine ⟨_, hpass.reaches.restore, ?_⟩
    have hspace := Sign.ne_space_of_ofChar? hsign
    simp [Rule.debt, hpass.depth_eq, hspace]
  | primary hskip =>
    refine ⟨_, hskip.passes.reaches.restore, ?_⟩
    rw [hskip.passes.depth_eq]
    simp [Rule.debt]
  | power _ hpass =>
    refine ⟨_, hpass.reaches.restore, ?_⟩
    simp [Rule.debt, hpass.depth_eq]
  | group hpass =>
    refine ⟨_, hpass.reaches.restore, ?_⟩
    simp [Rule.debt, hpass.depth_eq]
  | call hscan hrun =>
    refine ⟨_, (hscan.passes.reaches.note _).restore, ?_⟩
    have hdepth := hscan.passes.depth_eq
    have hpos := hscan.solidCount_pos hrun
    simp only [Rule.debt, State.note, hdepth]
    omega

/-- A rule that goes on behind another one owes no less. -/
theorem Starts.debt_next (h : Starts rule s r s₁ next) (e : Expr) : rule.debt ≤ (next e).debt := by
  cases h <;> simp [Rule.debt]

/-- A run that would open too many factors has passed a character for each factor that it has
opened. -/
theorem Runs.limit_le (h : Runs rule s ⟨.error f, t⟩) (hdeep : f.cause.kind = .resource) :
    ∃ w, s.Reaches w t ∧ s.limit + rule.debt ≤ s.depth + solidCount w := by
  induction h using Runs.error_induction with
  | stop hstop =>
    obtain ⟨rfl, hdepth, rfl, -⟩ := hstop.cases_of_tooDeep hdeep
    exact ⟨[], .refl _, by simpa [Rule.debt] using hdepth⟩
  | fail hstart _ ih =>
    obtain ⟨v, hv, hdebt⟩ := hstart.debt_le
    obtain ⟨w, hw, hle⟩ := ih
    refine ⟨v ++ w, hv.trans hw.atDepth, ?_⟩
    rw [hstart.limit_eq] at hle
    rw [solidCount_append]
    omega
  | @next _ _ s _ u _ _ e hstart hrun _ ih =>
    obtain ⟨v, hv⟩ := hstart.reaches
    obtain ⟨w, hw⟩ := hrun.reaches
    obtain ⟨x, hx, hle⟩ := ih
    refine ⟨v ++ w ++ x, (hv.trans hw.atDepth).trans hx, ?_⟩
    have hdebt := hstart.debt_next e
    have hlimit := hstart.limit_next hrun
    have hdepth : (u.atDepth s.depth).depth = s.depth := rfl
    rw [hlimit, hdepth] at hle
    rw [solidCount_append, solidCount_append]
    omega

/-! ## Further under a higher limit -/

theorem State.Reaches.position_le (h : s.Reaches w t) :
    s.cursor.position ≤ t.cursor.position := by
  rw [h.cursor.position_eq]
  omega

theorem State.Reaches.position_lt (h : s.Reaches w t) (hw : 0 < solidCount w) :
    s.cursor.position < t.cursor.position := by
  have hpos : 0 < byteLength w := by
    rcases w with _ | ⟨c, w⟩
    · cases hw
    · have hc := c.utf8Size_pos
      rw [byteLength_cons]
      omega
  rw [h.cursor.position_eq]
  omega

/-- Where a factor may be opened, one that is read or that is nested too deeply takes up text. -/
theorem Runs.position_lt_of_factor (h : Runs .factor s reply) (hdepth : s.depth < s.limit)
    (hreply : ∀ f, reply.result = .error f → f.cause.kind = .resource) :
    s.cursor.position < reply.state.cursor.position := by
  obtain ⟨f | e, t⟩ := reply
  · obtain ⟨w, hw, hle⟩ := h.limit_le (hreply f rfl)
    refine hw.position_lt ?_
    simp only [Rule.debt] at hle
    omega
  · obtain ⟨w, hw, T, -, hspells⟩ := h.makes
    exact hw.position_lt hspells.solidCount_pos

/-- A run that opens too many factors comes further under a higher limit, if it does not fail for
another reason. -/
theorem Runs.position_lt {d : Nat} (h : Runs rule s ⟨.error f, t⟩)
    (hdeep : f.cause.kind = .resource) (hdepth : s.depth ≤ s.limit) (hlt : s.limit < d)
    (h' : Runs rule (s.withLimit d) reply)
    (hreply : ∀ f, reply.result = .error f → f.cause.kind = .resource) :
    t.cursor.position < reply.state.cursor.position := by
  induction h using Runs.error_induction generalizing reply with
  | stop hstop =>
    -- Here the higher limit lets a factor be opened.
    obtain ⟨rfl, -, rfl, -⟩ := hstop.cases_of_tooDeep hdeep
    exact h'.position_lt_of_factor (Nat.lt_of_le_of_lt hdepth hlt) hreply
  | fail hstart _ ih =>
    have hdepth₁ := hstart.depth_le hdepth
    have hlt₁ := hlt
    rw [← hstart.limit_eq] at hlt₁
    rcases (hstart.withLimit (Nat.le_of_lt hlt)).runs_cases h' with
      ⟨f', t', hrun', rfl⟩ | ⟨e, t', hrun', hnext'⟩
    -- Under the higher limit the same rule fails further behind, or it succeeds.
    · have hmid := ih hdepth₁ hlt₁ hrun' fun f' hf' => hreply f' hf'
      exact hmid
    · have hmid := ih hdepth₁ hlt₁ hrun' (by rintro f' ⟨⟩)
      obtain ⟨x, hx⟩ := hnext'.reaches
      exact Nat.lt_of_lt_of_le hmid hx.position_le
  | next hstart hrun _ ih =>
    have hlimit := hstart.limit_next hrun
    have hle₁ := Nat.le_of_lt hlt
    rw [← hstart.limit_eq] at hle₁
    -- Both runs find the same operand, and part behind it.
    have hrun' := hrun.withLimit hle₁ Reply.not_tooDeep_ok
    rcases (hstart.withLimit (Nat.le_of_lt hlt)).runs_cases h' with
      ⟨f', t', hfail, rfl⟩ | ⟨e', t', hok, hnext'⟩
    · cases hrun'.unique hfail
    · cases hrun'.unique hok
      exact ih (by rwa [hlimit]) (by rwa [hlimit]) hnext' hreply

/-! ## Whole texts -/

section Parse

variable {d d' : Nat} {text : List Char}

/-- Without any factor, every text is nested too deeply. -/
theorem tooDeep_parse_zero (text : List Char) : (parse 0 text).TooDeep := by
  have hrun : Runs (.chain .sum) (.start 0 text) _ :=
    .fail .chain (.fail .chain (.stop (.tooDeep (Nat.le_refl _))))
  rw [(Parses.fail hrun).parse_eq]
  exact ⟨_, rfl, rfl⟩

/-- A text that is nested too deeply is found to be while its expression is read. -/
theorem Reply.TooDeep.exists_runs (h : (parse d text).TooDeep) :
    ∃ t, parse d text = ⟨.error ⟨.nestingTooDeep d, t.cursor.position⟩, t⟩ ∧
      Runs (.chain .sum) (.start d text) ⟨.error ⟨.nestingTooDeep d, t.cursor.position⟩, t⟩ := by
  obtain ⟨f, hf, hdeep⟩ := h
  have hparse := parses_parse d text
  rcases hreply : parse d text with ⟨result, t⟩
  rw [hreply] at hf hparse
  obtain rfl : result = .error f := hf
  have hrun := hparse.runs_of_tooDeep hdeep
  obtain rfl : f = ⟨.nestingTooDeep d, t.cursor.position⟩ := hrun.eq_of_tooDeep hdeep
  exact ⟨t, rfl, hrun⟩

theorem Reply.TooDeep.result_eq (h : (parse d text).TooDeep) :
    (parse d text).result =
      .error ⟨.nestingTooDeep d, (parse d text).state.cursor.position⟩ := by
  obtain ⟨t, hparse, -⟩ := h.exists_runs
  rw [hparse]

/-- A text that is nested too deeply has a character for each factor that may be open. -/
theorem Reply.TooDeep.le_solidCount (h : (parse d text).TooDeep) : d ≤ solidCount text := by
  obtain ⟨t, -, hrun⟩ := h.exists_runs
  obtain ⟨w, hw, hle⟩ := hrun.limit_le rfl
  have hle : d + 0 ≤ 0 + solidCount w := hle
  have htext : text = w ++ t.cursor.rest := hw.cursor.rest_eq
  rw [htext, solidCount_append]
  omega

/-- A text that is not nested too deeply is not so under a higher limit, and nothing else changes
either. -/
theorem parse_result_of_le (h : ¬ (parse d text).TooDeep) (hle : d ≤ d') :
    (parse d' text).result = (parse d text).result := by
  rw [((parses_parse d text).withLimit hle h).parse_eq]

/-- Too deep a nesting is reported further behind under a higher limit. -/
theorem position_parse_lt (h : (parse d text).TooDeep) (h' : (parse d' text).TooDeep)
    (hlt : d < d') :
    (parse d text).state.cursor.position < (parse d' text).state.cursor.position := by
  obtain ⟨t, hparse, hrun⟩ := h.exists_runs
  obtain ⟨t', hparse', hrun'⟩ := h'.exists_runs
  rw [hparse, hparse']
  refine hrun.position_lt rfl (Nat.zero_le d) hlt hrun' ?_
  rintro f ⟨⟩
  rfl

/-- Too deep a nesting is reported where a factor is opened. -/
theorem Reply.TooDeep.opening (h : (parse d text).TooDeep) :
    ∃ before after, text = before ++ after ∧
      byteLength before = (parse d text).state.cursor.position ∧ Opening before after := by
  obtain ⟨t, hparse, hrun⟩ := h.exists_runs
  rw [hparse]
  obtain ⟨w, hw⟩ := hrun.reaches
  have htext : text = t.cursor.before ++ t.cursor.rest := by
    rw [hw.cursor.before_eq]
    exact hw.cursor.rest_eq
  refine ⟨t.cursor.before, t.cursor.rest, htext, t.cursor.position_eq_byteLength_before.symm, ?_⟩
  rcases hrun.opening rfl (State.due_start d text) (Nat.zero_le d) with ⟨-, -, hcursor⟩ | hopening
  · rw [hcursor]
    exact .start
  · exact hopening

end Parse

end Calculator.Parser

namespace Calculator

open Calculator.Parser

/-- The limit for open factors is a threshold. From `N` on, the outcome is always the same; below,
it is too deep a nesting, reported at an opening and the further behind the higher the limit. -/
theorem evaluate_nesting_threshold (text : String) :
    ∃ (N : Nat) (outcome : Outcome) (place : Nat → Nat),
      1 ≤ N ∧ N ≤ 1 + solidCount text.toList ∧
      (∀ d, N ≤ d → evaluate ⟨d⟩ text = outcome) ∧
      (∀ limit position, outcome ≠ .error ⟨.nestingTooDeep limit, position⟩) ∧
      (∀ d, d < N → evaluate ⟨d⟩ text = .error ⟨.nestingTooDeep d, place d⟩) ∧
      (∀ d d', d < d' → d' < N → place d < place d') ∧
      ∀ d, d < N → ∃ before after, text.toList = before ++ after ∧
        byteLength before = place d ∧ Opening before after := by
  classical
  have heval : ∀ d, evaluate ⟨d⟩ text = (parse d text.toList).result.map Expr.value := fun _ => rfl
  have hexists : ∃ d, ¬ (parse d text.toList).TooDeep := by
    refine ⟨1 + solidCount text.toList, fun h => ?_⟩
    have hle := h.le_solidCount
    omega
  -- The threshold is the least limit under which the text is not nested too deeply.
  have hN := Nat.find_spec hexists
  have hbelow : ∀ d, d < Nat.find hexists → (parse d text.toList).TooDeep :=
    fun d hd => not_not.mp (Nat.find_min hexists hd)
  refine ⟨Nat.find hexists, evaluate ⟨Nat.find hexists⟩ text,
    fun d => (parse d text.toList).state.cursor.position, ?_, ?_, fun d hd => ?_,
    fun limit position h => ?_, fun d hd => ?_, fun d d' hlt hd' => ?_, fun d hd => ?_⟩
  · refine Nat.one_le_iff_ne_zero.mpr fun h => hN ?_
    rw [h]
    exact tooDeep_parse_zero text.toList
  · refine Nat.find_min' hexists fun h => ?_
    have hle := h.le_solidCount
    omega
  · rw [heval, heval, parse_result_of_le hN hd]
  · rw [heval] at h
    rcases hresult : (parse (Nat.find hexists) text.toList).result with f | e
    · rw [hresult] at h
      cases h
      exact hN ⟨_, hresult, rfl⟩
    · rw [hresult] at h
      cases h
  · rw [heval, (hbelow d hd).result_eq]
    rfl
  · exact position_parse_lt (hbelow d (Nat.lt_trans hlt hd')) (hbelow d' hd') hlt
  · exact (hbelow d hd).opening

end Calculator
