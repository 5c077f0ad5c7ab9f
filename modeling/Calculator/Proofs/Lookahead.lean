import Calculator.Proofs.Runs

/-!
# One character of lookahead

A run depends on the text that it passes and on the character in front of which it stops, and on
nothing behind that character. Two texts that agree so far are kept side by side as states that
differ in their tails only (`Twin`): every step of a run that stops in front of the tail is a step
of its twin.

## Main definitions

* `Failure.reach`: the place that the parser had reached when it failed.

## Main results

* `Runs.twin`: a run in front of another tail.
* `Parses.reach_eq`: failures tell the place that was reached.
* `evaluate_error_congr`: a failure stays the same whatever is behind the character at that place.
-/

namespace Calculator

/-- The byte offset that had been reached when a failure was detected: behind the name or the
numeral that was refused, else where the failure was detected. -/
def Failure.reach (f : Failure) : Nat :=
  match f.cause with
  | .unknownName name => f.position + name.utf8ByteSize
  | .malformedNumeral literal => f.position + literal.utf8ByteSize
  | _ => f.position

/-- The same failure, with another text as the input left over. -/
def Failure.withRest (rest : String) (f : Failure) : Failure :=
  match f.cause with
  | .trailingInput _ => ⟨.trailingInput rest, f.position⟩
  | _ => f

namespace Parser

/-- The state `s'` is `s` in a text that has `tail'` where the text of `s` has `tail`. -/
def Twin (tail tail' : List Char) (s s' : State) : Prop :=
  ∃ w, s.cursor.rest = w ++ tail ∧ s' = { s with cursor := ⟨s.cursor.passed, w ++ tail'⟩ }

variable {rule r : Rule} {s s' s₁ t : State} {next : Expr → Rule} {reply : Reply Expr}
  {tail tail' w g run : List Char}

namespace Twin

theorem depth_eq (h : Twin tail tail' s s') : s'.depth = s.depth := by
  obtain ⟨w, -, rfl⟩ := h
  rfl

theorem limit_eq (h : Twin tail tail' s s') : s'.limit = s.limit := by
  obtain ⟨w, -, rfl⟩ := h
  rfl

theorem position_eq (h : Twin tail tail' s s') : s'.cursor.position = s.cursor.position := by
  obtain ⟨w, -, rfl⟩ := h
  rfl

theorem note (lookup : Lookup) (h : Twin tail tail' s s') :
    Twin tail tail' (s.note lookup) (s'.note lookup) := by
  obtain ⟨w, hw, rfl⟩ := h
  exact ⟨w, hw, rfl⟩

theorem enter (h : Twin tail tail' s s') : Twin tail tail' s.enter s'.enter := by
  obtain ⟨w, hw, rfl⟩ := h
  exact ⟨w, hw, rfl⟩

theorem atDepth (depth : Nat) (h : Twin tail tail' s s') :
    Twin tail tail' (s.atDepth depth) (s'.atDepth depth) := by
  obtain ⟨w, hw, rfl⟩ := h
  exact ⟨w, hw, rfl⟩

/-- What is passed in front of the tail is passed by the twin too. -/
theorem passes (h : Twin tail tail' s s') (hpass : s.Passes w t) (ht : tail <:+ t.cursor.rest) :
    ∃ t', s'.Passes w t' ∧ Twin tail tail' t t' := by
  obtain ⟨v, hv, rfl⟩ := h
  obtain ⟨x, hx⟩ := ht
  -- What stands in front of the tail is what is passed and what is left in front of the tail.
  have hrest : v ++ tail = w ++ x ++ tail := by
    rw [← hv, hpass.cursor.rest_eq, ← hx, List.append_assoc]
  have hvw : v = w ++ x := List.append_cancel_right hrest
  refine ⟨{ t with cursor := ⟨t.cursor.passed, x ++ tail'⟩ }, ⟨⟨?_, ?_⟩, ?_⟩, x, hx.symm, rfl⟩
  · rw [hvw, List.append_assoc]
  · exact hpass.cursor.passed_eq
  · rw [hpass.eq]

section Head

variable (hhead : tail'.head? = tail.head?)

include hhead

/-- Twins stand in front of the same character. -/
theorem peek_eq (h : Twin tail tail' s s') : s'.peek = s.peek := by
  obtain ⟨v, hv, rfl⟩ := h
  show (v ++ tail').head? = s.cursor.rest.head?
  rw [hv, List.head?_append, List.head?_append, hhead]

theorem next?_eq {α : Type} {read : Char → Option α} (h : Twin tail tail' s s') :
    s'.next? read = s.next? read := by
  rw [State.next?, h.peek_eq hhead, State.next?]

theorem scans {accept : Char → Bool} (h : Twin tail tail' s s') (hscan : s.Scans accept run t)
    (ht : tail <:+ t.cursor.rest) : ∃ t', s'.Scans accept run t' ∧ Twin tail tail' t t' := by
  obtain ⟨t', hpass, htwin⟩ := h.passes hscan.passes ht
  refine ⟨t', ⟨hpass, hscan.all, ?_⟩, htwin⟩
  rw [htwin.peek_eq hhead]
  exact hscan.stop

theorem skips (h : Twin tail tail' s s') (hskip : s.Skips g t) (ht : tail <:+ t.cursor.rest) :
    ∃ t', s'.Skips g t' ∧ Twin tail tail' t t' := by
  obtain ⟨t', hpass, htwin⟩ := h.passes hskip.passes ht
  refine ⟨t', ⟨hpass, hskip.gap, ?_⟩, htwin⟩
  rw [htwin.peek_eq hhead]
  exact hskip.stop

end Head

end Twin

/-! ## Steps and runs of twins -/

section Head

variable (hhead : tail'.head? = tail.head?)

include hhead

theorem Stops.twin (h : Stops rule s reply) (hs : Twin tail tail' s s')
    (ht : tail <:+ reply.state.cursor.rest) :
    ∃ t', Stops rule s' ⟨reply.result, t'⟩ ∧ Twin tail tail' reply.state t' := by
  cases h with
  | more hskip hop =>
    obtain ⟨t', hskip', htwin⟩ := hs.skips hhead hskip ht
    exact ⟨t', .more hskip' (by rwa [htwin.next?_eq hhead]), htwin⟩
  | tooDeep hdepth =>
    rw [← hs.limit_eq, ← hs.position_eq]
    exact ⟨s', .tooDeep (by rwa [hs.limit_eq, hs.depth_eq]), hs⟩
  | power hskip hcaret =>
    obtain ⟨t', hskip', htwin⟩ := hs.skips hhead hskip ht
    exact ⟨t', .power hskip' (by rwa [htwin.peek_eq hhead]), htwin⟩
  | unexpectedEnd hpeek =>
    rw [← hs.position_eq]
    exact ⟨s', .unexpectedEnd (by rwa [hs.peek_eq hhead]), hs⟩
  | unexpectedCharacter hpeek hparen hnumeral hlower =>
    rw [← hs.position_eq]
    exact ⟨s', .unexpectedCharacter (by rwa [hs.peek_eq hhead]) hparen hnumeral hlower, hs⟩
  | numeral hscan hrun hn =>
    obtain ⟨t', hscan', htwin⟩ := hs.scans hhead hscan ht
    exact ⟨t', .numeral hscan' hrun hn, htwin⟩
  | malformedNumeral hscan hrun hn =>
    obtain ⟨t', hscan', htwin⟩ := hs.scans hhead hscan ht
    rw [← hs.position_eq]
    exact ⟨t', .malformedNumeral hscan' hrun hn, htwin⟩
  | constant hscan hrun hc =>
    obtain ⟨t', hscan', htwin⟩ := hs.scans hhead hscan ht
    exact ⟨_, .constant hscan' hrun hc, htwin.note _⟩
  | unknownName hscan hrun hname =>
    obtain ⟨t', hscan', htwin⟩ := hs.scans hhead hscan ht
    rw [← hs.position_eq]
    exact ⟨_, .unknownName hscan' hrun hname, htwin.note _⟩
  | close hgap hpass =>
    obtain ⟨t', hpass', htwin⟩ := hs.passes hpass ht
    exact ⟨t', .close hgap hpass', htwin⟩
  | unclosed hskip hparen =>
    obtain ⟨t', hskip', htwin⟩ := hs.skips hhead hskip ht
    rw [← htwin.position_eq]
    exact ⟨t', .unclosed hskip' (by rwa [htwin.peek_eq hhead]), htwin⟩
  | done => exact ⟨s', .done, hs⟩

theorem Starts.twin (h : Starts rule s r s₁ next) (hs : Twin tail tail' s s')
    (ht : tail <:+ s₁.cursor.rest) :
    ∃ s₁', Starts rule s' r s₁' next ∧ Twin tail tail' s₁ s₁' := by
  cases h with
  | chain => exact ⟨s', .chain, hs⟩
  | more hgap hpass hop =>
    obtain ⟨t', hpass', htwin⟩ := hs.passes hpass ht
    exact ⟨t', .more hgap hpass' hop, htwin⟩
  | factor hdepth => exact ⟨s'.enter, .factor (by rwa [hs.depth_eq, hs.limit_eq]), hs.enter⟩
  | sign hgap hpass hsign =>
    obtain ⟨t', hpass', htwin⟩ := hs.passes hpass ht
    exact ⟨t', .sign hgap hpass' hsign, htwin⟩
  | primary hskip hsign =>
    obtain ⟨t', hskip', htwin⟩ := hs.skips hhead hskip ht
    exact ⟨t', .primary hskip' (by rwa [htwin.next?_eq hhead]), htwin⟩
  | power hgap hpass =>
    obtain ⟨t', hpass', htwin⟩ := hs.passes hpass ht
    exact ⟨t', .power hgap hpass', htwin⟩
  | group hpass =>
    obtain ⟨t', hpass', htwin⟩ := hs.passes hpass ht
    exact ⟨t', .group hpass', htwin⟩
  | call hscan hrun hf =>
    obtain ⟨t', hscan', htwin⟩ := hs.scans hhead hscan ht
    exact ⟨_, .call hscan' hrun hf, htwin.note _⟩

/-- A run that stops in front of the tail goes the same way in front of another tail that starts
with the same character. -/
theorem Runs.twin (h : Runs rule s reply) (hs : Twin tail tail' s s')
    (ht : tail <:+ reply.state.cursor.rest) :
    ∃ t', Runs rule s' ⟨reply.result, t'⟩ ∧ Twin tail tail' reply.state t' := by
  induction h generalizing s' with
  | stop hstop =>
    obtain ⟨t', hstop', htwin⟩ := hstop.twin hhead hs ht
    exact ⟨t', .stop hstop', htwin⟩
  -- The tail is behind the whole run, so it is behind every part of the run.
  | fail hstart hrun ih =>
    have hs₁ := ht.trans hrun.rest_suffix
    obtain ⟨s₁', hstart', hs₁'⟩ := hstart.twin hhead hs hs₁
    obtain ⟨t', hrun', htwin⟩ := ih hs₁' ht
    rw [← hs.depth_eq]
    exact ⟨_, .fail hstart' hrun', htwin.atDepth _⟩
  | next hstart hrun hnext ih ihnext =>
    have hmid := ht.trans hnext.rest_suffix
    have hs₁ := hmid.trans hrun.rest_suffix
    obtain ⟨s₁', hstart', hs₁'⟩ := hstart.twin hhead hs hs₁
    obtain ⟨t', hrun', htwin⟩ := ih hs₁' hmid
    obtain ⟨u', hnext', hu'⟩ := ihnext (htwin.atDepth _) ht
    rw [← hs.depth_eq] at hnext'
    exact ⟨u', .next hstart' hrun' hnext', hu'⟩

end Head

/-! ## Where failures are detected -/

variable {f : Failure}

/-- A step that fails has reached the place told by the failure. -/
theorem Stops.reach_eq (h : Stops rule s ⟨.error f, t⟩) : t.cursor.position = f.reach := by
  cases h with
  | tooDeep | unexpectedEnd | unexpectedCharacter | unclosed => rfl
  | malformedNumeral hscan =>
    rw [hscan.passes.cursor.position_eq, ← utf8ByteSize_ofList]
    rfl
  | @unknownName _ u _ hscan =>
    show u.cursor.position = _
    rw [hscan.passes.cursor.position_eq, ← utf8ByteSize_ofList]
    rfl

/-- No step reports input left over. -/
theorem Stops.withRest_eq (h : Stops rule s ⟨.error f, t⟩) (rest : String) :
    f.withRest rest = f := by
  cases h <;> rfl

theorem Runs.reach_eq (h : Runs rule s ⟨.error f, t⟩) : t.cursor.position = f.reach := by
  obtain ⟨r, u, v, hstop, -, rfl⟩ := h.exists_stops
  exact hstop.reach_eq

theorem Runs.withRest_eq (h : Runs rule s ⟨.error f, t⟩) (rest : String) :
    f.withRest rest = f := by
  obtain ⟨r, u, v, hstop, -⟩ := h.exists_stops
  exact hstop.withRest_eq rest

/-- A parse that fails has reached the place told by the failure. -/
theorem Parses.reach_eq {limit : Nat} {text : List Char} (h : Parses limit text ⟨.error f, t⟩) :
    t.cursor.position = f.reach := by
  cases h with
  | fail hrun => exact hrun.reach_eq
  | trailing => rfl

/-! ## Whole texts -/

theorem Twin.start {limit : Nat} {text : List Char} (h : text = w ++ tail) :
    Twin tail tail' (.start limit text) (.start limit (w ++ tail')) :=
  ⟨w, h, rfl⟩

/-- A failing parse fails in the same way in front of another tail that starts with the same
character. -/
theorem Parses.twin {limit : Nat} {text : List Char} (h : Parses limit text ⟨.error f, t⟩)
    (htext : text = w ++ t.cursor.rest) (hhead : tail'.head? = t.cursor.rest.head?) :
    ∃ t', Parses limit (w ++ tail') ⟨.error (f.withRest (String.ofList tail')), t'⟩ := by
  have hstart : Twin t.cursor.rest tail' (.start limit text) _ := .start htext
  cases h with
  | fail hrun =>
    -- The tail is what the run has left.
    obtain ⟨t', hrun', -⟩ := hrun.twin hhead hstart List.suffix_rfl
    rw [hrun.withRest_eq]
    exact ⟨t', .fail hrun'⟩
  | trailing hrun hskip hend =>
    have hsuffix : t.cursor.rest <:+ _ := ⟨_, hskip.passes.cursor.rest_eq.symm⟩
    obtain ⟨s', hrun', hs'⟩ := hrun.twin hhead hstart hsuffix
    obtain ⟨t', hskip', v, hv, rfl⟩ := hs'.skips hhead hskip List.suffix_rfl
    -- Nothing stands in front of the tail, so what is left over is the other tail.
    obtain rfl : v = [] := List.append_left_eq_self.mp hv.symm
    have hend' : tail' ≠ [] := by
      rintro rfl
      exact hend (List.head?_eq_none_iff.mp hhead.symm)
    exact ⟨_, .trailing hrun' hskip' hend'⟩

/-- Where a failing parse has come to: what it has passed, and what it has not. -/
theorem Parses.exists_passed {limit : Nat} {text : List Char}
    (h : Parses limit text ⟨.error f, t⟩) :
    ∃ w, text = w ++ t.cursor.rest ∧ byteLength w = f.reach := by
  obtain ⟨w, hw⟩ := h.reaches
  refine ⟨w, hw.cursor.rest_eq, ?_⟩
  rw [← h.reach_eq, hw.cursor.position_eq]
  simp [State.start, Cursor.ofText, Cursor.position, byteLength]

end Parser

open Calculator.Parser

/-- A failure is told by the text in front of the place that was reached and by the character at
that place. Whatever is behind that character, the same failure is reported; only the input left
over is told as it is. -/
theorem evaluate_error_congr {options : Options} {text : String} {f : Failure}
    (h : evaluate options text = .error f) :
    ∃ before after : String, text = before ++ after ∧ before.utf8ByteSize = f.reach ∧
      ∀ after' : String, after'.toList.head? = after.toList.head? →
        evaluate options (before ++ after') = .error (f.withRest after') := by
  obtain ⟨t, hparse⟩ := evaluate_eq_error_iff.mp h
  obtain ⟨w, hw, hreach⟩ := hparse.exists_passed
  refine ⟨String.ofList w, String.ofList t.cursor.rest, ?_, ?_, fun after' hhead => ?_⟩
  · rw [← String.ofList_append, ← hw, String.ofList_toList]
  · rw [utf8ByteSize_ofList, hreach]
  · rw [String.toList_ofList] at hhead
    obtain ⟨t', hparse'⟩ := hparse.twin hw hhead
    rw [evaluate_eq_error_iff]
    refine ⟨t', ?_⟩
    rw [String.toList_append, String.toList_ofList]
    rwa [String.ofList_toList] at hparse'

/-- Whatever follows an expression and a parenthesis that closes nothing is left over. -/
theorem evaluate_error_congr_left_over :
    evaluate {} "1)" = .error ⟨.trailingInput ")", 1⟩ ∧
      ∃ before after : String, "1)" = before ++ after ∧ before.utf8ByteSize = 1 ∧
        ∀ after' : String, after'.toList.head? = after.toList.head? →
          evaluate {} (before ++ after') = .error ⟨.trailingInput after', 1⟩ := by
  have hscan := State.scans_run isNumeralChar (State.start 256 ['1', ')']).enter
  have hprimary := Runs.stop (.numeral hscan (by decide) (n := ⟨1, 0⟩) (by decide))
  have hfactor : Runs .factor (.start 256 ['1', ')']) ⟨.ok (.numeral ⟨1, 0⟩), _⟩ :=
    .next (.factor (by decide))
      (.next (.primary (State.skips_refl (by decide)) (by decide)) hprimary
        (.stop (.power (State.skips_refl (by decide)) (by decide))))
      (.stop .done)
  have hproduct : Runs (.chain .product) (.start 256 ['1', ')']) ⟨.ok (.numeral ⟨1, 0⟩), _⟩ :=
    .next .chain hfactor (.stop (.more (State.skips_refl (by decide)) (by decide)))
  have hsum : Runs (.chain .sum) (.start 256 ['1', ')']) ⟨.ok (.numeral ⟨1, 0⟩), _⟩ :=
    .next .chain hproduct (.stop (.more (State.skips_refl (by decide)) (by decide)))
  have h : evaluate {} "1)" = .error ⟨.trailingInput ")", 1⟩ :=
    evaluate_eq_error_iff.mpr ⟨_, .trailing hsum (State.skips_refl (by decide)) (by decide)⟩
  exact ⟨h, evaluate_error_congr h⟩

end Calculator
