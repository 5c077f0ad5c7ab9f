import Calculator.Proofs.Runs

/-!
# Higher limits

The number of factors that may be open decides one thing only: whether a run fails because too many
of them would be. A run that does not fail in this way goes step by step the same under any higher
limit.

## Main results

* `Stops.withLimit`, `Starts.withLimit`: steps under a higher limit.
* `Runs.withLimit`, `Parses.withLimit`: runs and parses under a higher limit.
* `Parses.result_eq`: two limits of which none is exceeded.
* `Runs.eq_of_tooDeep`: the failure of a run that would open too many factors.
-/

namespace Calculator.Parser

/-- The same state with another number of factors that may be open. -/
def State.withLimit (limit : Nat) (s : State) : State :=
  { s with limit }

variable {rule r : Rule} {s s₁ t : State} {next : Expr → Rule} {reply : Reply Expr} {f : Failure}
  {w g run : List Char} {d : Nat}

namespace State

theorem Passes.withLimit (d : Nat) (h : s.Passes w t) :
    (s.withLimit d).Passes w (t.withLimit d) := by
  refine ⟨h.cursor, ?_⟩
  rw [h.eq]
  rfl

theorem Scans.withLimit {accept : Char → Bool} (d : Nat) (h : s.Scans accept run t) :
    (s.withLimit d).Scans accept run (t.withLimit d) :=
  ⟨h.passes.withLimit d, h.all, h.stop⟩

theorem Skips.withLimit (d : Nat) (h : s.Skips g t) : (s.withLimit d).Skips g (t.withLimit d) :=
  ⟨h.passes.withLimit d, h.gap, h.stop⟩

end State

/-- Opening too many factors is what the reply is about. -/
def Reply.TooDeep (reply : Reply Expr) : Prop :=
  ∃ f, reply.result = .error f ∧ f.cause.kind = .resource

theorem Reply.not_tooDeep_ok {e : Expr} : ¬ Reply.TooDeep ⟨.ok e, t⟩ := by
  rintro ⟨f, h, -⟩
  cases h

/-! ## Steps and runs under a higher limit -/

/-- A step that stops does so under any limit, but for a factor that may not be opened. -/
theorem Stops.withLimit (d : Nat) (h : Stops rule s reply) (hdeep : ¬ reply.TooDeep) :
    Stops rule (s.withLimit d) ⟨reply.result, reply.state.withLimit d⟩ := by
  cases h with
  | more hskip hop => exact .more (hskip.withLimit d) hop
  -- The only step that asks for the limit.
  | tooDeep hdepth => exact absurd ⟨_, rfl, rfl⟩ hdeep
  | power hskip hcaret => exact .power (hskip.withLimit d) hcaret
  | unexpectedEnd hpeek => exact .unexpectedEnd (s := s.withLimit d) hpeek
  | unexpectedCharacter hpeek hparen hnumeral hlower =>
    exact .unexpectedCharacter (s := s.withLimit d) hpeek hparen hnumeral hlower
  | numeral hscan hrun hn => exact .numeral (hscan.withLimit d) hrun hn
  | malformedNumeral hscan hrun hn => exact .malformedNumeral (hscan.withLimit d) hrun hn
  | constant hscan hrun hc => exact .constant (hscan.withLimit d) hrun hc
  | unknownName hscan hrun hname => exact .unknownName (hscan.withLimit d) hrun hname
  | close hgap hpass => exact .close hgap (hpass.withLimit d)
  | unclosed hskip hparen => exact .unclosed (hskip.withLimit d) hparen
  | done => exact .done

/-- A factor that may be opened may be opened under a higher limit. -/
theorem Starts.withLimit (h : Starts rule s r s₁ next) (hle : s.limit ≤ d) :
    Starts rule (s.withLimit d) r (s₁.withLimit d) next := by
  cases h with
  | chain => exact .chain
  | more hgap hpass hop => exact .more hgap (hpass.withLimit d) hop
  | factor hdepth => exact .factor (s := s.withLimit d) (Nat.lt_of_lt_of_le hdepth hle)
  | sign hgap hpass hsign => exact .sign hgap (hpass.withLimit d) hsign
  | primary hskip hsign => exact .primary (hskip.withLimit d) hsign
  | power hgap hpass => exact .power hgap (hpass.withLimit d)
  | group hpass => exact .group (hpass.withLimit d)
  | call hscan hrun hf => exact .call (hscan.withLimit d) hrun hf

/-- A run that does not open too many factors is the same under a higher limit. -/
theorem Runs.withLimit (h : Runs rule s reply) (hle : s.limit ≤ d) (hdeep : ¬ reply.TooDeep) :
    Runs rule (s.withLimit d) ⟨reply.result, reply.state.withLimit d⟩ := by
  induction h with
  | stop hstop => exact .stop (hstop.withLimit d hdeep)
  | fail hstart hrun ih =>
    refine .fail (hstart.withLimit hle) (ih ?_ hdeep)
    rwa [hstart.limit_eq]
  | next hstart hrun hnext ih ihnext =>
    refine .next (hstart.withLimit hle) (ih ?_ Reply.not_tooDeep_ok) (ihnext ?_ hdeep)
    · rwa [hstart.limit_eq]
    · rwa [hstart.limit_next hrun]

/-! ## Opening too many factors -/

/-- The only step that exhausts a resource is to open a factor that may not be opened. -/
theorem Stops.cases_of_tooDeep (h : Stops rule s ⟨.error f, t⟩)
    (hdeep : f.cause.kind = .resource) :
    rule = .factor ∧ s.limit ≤ s.depth ∧ t = s ∧
      f = ⟨.nestingTooDeep s.limit, s.cursor.position⟩ := by
  cases h with
  | tooDeep hdepth => exact ⟨rfl, hdepth, rfl, rfl⟩
  | unexpectedEnd | unexpectedCharacter | malformedNumeral | unknownName | unclosed => cases hdeep

/-- A run that would open too many factors tells the limit, and the place where it has come to. -/
theorem Runs.eq_of_tooDeep (h : Runs rule s ⟨.error f, t⟩) (hdeep : f.cause.kind = .resource) :
    f = ⟨.nestingTooDeep s.limit, t.cursor.position⟩ := by
  obtain ⟨r, u, v, hstop, hlimit, rfl⟩ := h.exists_stops
  obtain ⟨-, -, rfl, rfl⟩ := hstop.cases_of_tooDeep hdeep
  rw [← hlimit]
  rfl

/-! ## Whole texts -/

variable {limit : Nat} {text : List Char}

/-- A parse that does not open too many factors is the same under a higher limit. -/
theorem Parses.withLimit (h : Parses limit text reply) (hle : limit ≤ d)
    (hdeep : ¬ reply.TooDeep) : Parses d text ⟨reply.result, reply.state.withLimit d⟩ := by
  cases h with
  | ok hrun hskip hend =>
    exact .ok (hrun.withLimit (d := d) hle Reply.not_tooDeep_ok) (hskip.withLimit d) hend
  | fail hrun => exact .fail (hrun.withLimit (d := d) hle hdeep)
  | trailing hrun hskip hend =>
    exact .trailing (hrun.withLimit (d := d) hle Reply.not_tooDeep_ok) (hskip.withLimit d) hend

/-- Two limits of which none is exceeded give the same result. -/
theorem Parses.result_eq {reply' : Reply Expr} (h : Parses limit text reply)
    (h' : Parses d text reply') (hdeep : ¬ reply.TooDeep) (hdeep' : ¬ reply'.TooDeep) :
    reply.result = reply'.result := by
  -- Both parses are the parse under the larger limit.
  have hmax := (h.withLimit (Nat.le_max_left limit d) hdeep).parse_eq
  have hmax' := (h'.withLimit (Nat.le_max_right limit d) hdeep').parse_eq
  rw [hmax'] at hmax
  exact (congrArg Reply.result hmax).symm

/-- A parse that would open too many factors does so while it reads the expression. -/
theorem Parses.runs_of_tooDeep (h : Parses limit text ⟨.error f, t⟩)
    (hdeep : f.cause.kind = .resource) :
    Runs (.chain .sum) (.start limit text) ⟨.error f, t⟩ := by
  cases h with
  | fail hrun => exact hrun
  | trailing => cases hdeep

end Calculator.Parser
