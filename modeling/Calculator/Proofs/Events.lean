import Calculator.Proofs.Spacing
import Mathlib.Data.List.SplitBy

/-!
# The events of an evaluation

What an evaluation reports can be told from its text and its outcome. There is one lookup for each
longest run of letters in the text that was consumed, in the order of the text, and then one event
with the outcome. Every name is found, but for the last one if it is what the evaluation failed for.

The reason is that letters are passed by lookups only, and that a lookup passes a whole run of them:
where a parse stands, the names noted are the runs of letters behind it, and no name goes on there
(`State.Told`).

## Main definitions

* `letterRuns`: the longest runs of letters of a text.
* `Outcome.Traces`: the consumed text and the lookups that belong to an outcome.
* `Outcome.Closes`: the last event of an outcome.
* `State.Told`: the lookups noted are those of the text passed.

## Main results

* `letterRuns_of_wholeRun`: the runs of a text around one of them.
* `Runs.told`, `Stops.traces`: what steps and runs note.
* `Evaluation.events_eq_lookups_append`: all events of an evaluation.
-/

namespace Calculator

/-! ## Runs of letters -/

/-- The longest runs of letters of a text, in order. -/
def letterRuns (w : List Char) : List (List Char) :=
  (w.splitBy fun c d => c.isLower && d.isLower).filter fun run => run.all Char.isLower

@[simp]
theorem letterRuns_nil : letterRuns [] = [] := rfl

/-- Between texts that stand apart, no run of letters is cut. -/
theorem letterRuns_append {v w : List Char} (h : Apart Char.isLower v w) :
    letterRuns (v ++ w) = letterRuns v ++ letterRuns w := by
  rw [letterRuns, List.splitBy_append, List.filter_append]
  · rfl
  · intro last hlast next hnext
    rcases hlower : last.isLower with _ | _
    · rfl
    · rw [h last hlast next hnext hlower]
      rfl

/-- A text without letters has no run of them. -/
theorem letterRuns_eq_nil {w : List Char} (h : ∀ c ∈ w, c.isLower = false) : letterRuns w = [] := by
  refine List.filter_eq_nil_iff.mpr fun run hrun hall => ?_
  obtain ⟨c, hc⟩ := List.exists_mem_of_ne_nil run (List.ne_nil_of_mem_splitBy hrun)
  have hmem : c ∈ (w.splitBy fun c d => c.isLower && d.isLower).flatten :=
    List.mem_flatten_of_mem hrun hc
  rw [List.flatten_splitBy] at hmem
  have hlower := List.all_eq_true.mp hall c hc
  rw [h c hmem] at hlower
  cases hlower

/-- A text of letters is one run. -/
theorem letterRuns_eq_singleton {run : List Char} (hrun : run ≠ [])
    (h : ∀ c ∈ run, c.isLower = true) : letterRuns run = [run] := by
  have hchain : run.IsChain fun c d => (c.isLower && d.isLower) = true := by
    refine (List.pairwise_of_forall_mem_list fun c hc d hd => ?_).isChain
    rw [h c hc, h d hd]
    rfl
  rw [letterRuns, List.splitBy_of_isChain hrun hchain, List.filter_singleton,
    List.all_eq_true.mpr h, cond_true]

/-- A longest run of letters is one of the runs of the text that it stands in. -/
theorem letterRuns_of_wholeRun {before run after : List Char}
    (h : WholeRun Char.isLower before run after) :
    letterRuns (before ++ run ++ after) = letterRuns before ++ run :: letterRuns after := by
  have hleft : Apart Char.isLower before run := by
    intro last hlast next _ hlower
    rw [h.left last hlast] at hlower
    cases hlower
  have hright : Apart Char.isLower (before ++ run) after :=
    fun _ _ next hnext _ => h.right next hnext
  rw [letterRuns_append hright, letterRuns_append hleft, letterRuns_eq_singleton h.ne_nil h.all,
    List.append_assoc, List.singleton_append]

example : letterRuns "2*sin(x pi)".toList = ["sin".toList, "x".toList, "pi".toList] := by decide

/-- What belongs to an outcome: the text that was consumed, the rest of the text, and the names that
were looked up. Behind a name that is unknown nothing is consumed, and it is the only name that is
not found. -/
def Outcome.Traces : Outcome → (consumed rest : List Char) → List Parser.Lookup → Prop
  | .ok _, _, rest, lookups => rest = [] ∧ ∀ lookup ∈ lookups, lookup.found = true
  | .error ⟨.unknownName name, position⟩, consumed, _, lookups =>
    byteLength consumed = position + name.utf8ByteSize ∧
      ∃ earlier, lookups = earlier ++ [⟨name, false⟩] ∧ ∀ lookup ∈ earlier, lookup.found = true
  | .error ⟨_, position⟩, consumed, _, lookups =>
    byteLength consumed = position ∧ ∀ lookup ∈ lookups, lookup.found = true

/-- How much an event matters, how it is worded, and what is in its fields. -/
def Event.Says (event : Event) (severity : Severity) (message : String)
    (fields : List (String × Event.Datum)) : Prop :=
  event.severity = severity ∧ event.message = message ∧ event.fields = fields

/-- The event that belongs to an outcome of the evaluation of a text: it tells the value of the
text, or where and why there is none. -/
def Outcome.Closes (text : String) : Outcome → Event → Prop
  | .ok value, last =>
    last = .evaluated text value ∧
      last.Says .trace "evaluated expression" [("input", .text text), ("value", .number value)]
  | .error failure, last =>
    last = .failed text failure ∧
      last.Says .debug "evaluation failed"
        [("input", .text text), ("position", .position failure.position),
          ("error", .text failure.message)]

theorem Event.resolved_says (lookup : Parser.Lookup) :
    (Event.resolved lookup).Says .trace "resolved identifier"
      [("name", .text lookup.name), ("found", .flag lookup.found)] :=
  ⟨rfl, rfl, rfl⟩

theorem Event.closes_closing (text : String) (outcome : Outcome) :
    outcome.Closes text (.closing text outcome) := by
  cases outcome with
  | ok value => exact ⟨rfl, rfl, rfl, rfl⟩
  | error failure => exact ⟨rfl, rfl, rfl, rfl⟩

namespace Parser

variable {rule r : Rule} {s s₁ t : State} {next : Expr → Rule} {e : Expr} {f : Failure}
  {w run : List Char}

/-! ## What a state has noted -/

/-- The names noted are the runs of letters in front of the cursor, all of them were found, and no
name goes on at the cursor. -/
structure State.Told (s : State) : Prop where
  /-- The names noted are the runs of letters passed. -/
  lookups_eq : s.lookups.reverse =
    (letterRuns s.cursor.before).map fun run => ⟨String.ofList run, true⟩
  /-- No name goes on here. -/
  apart : Apart Char.isLower s.cursor.before s.cursor.rest

namespace State.Told

theorem start (limit : Nat) (text : List Char) : (State.start limit text).Told :=
  ⟨rfl, by rintro last ⟨⟩⟩

theorem atDepth (h : s.Told) (depth : Nat) : (s.atDepth depth).Told :=
  ⟨h.lookups_eq, h.apart⟩

theorem found (h : s.Told) : ∀ lookup ∈ s.lookups.reverse, lookup.found = true := by
  intro lookup hlookup
  rw [h.lookups_eq, List.mem_map] at hlookup
  obtain ⟨run, -, rfl⟩ := hlookup
  rfl

theorem names_eq (h : s.Told) : s.lookups.reverse.map Lookup.name =
    (letterRuns s.cursor.before).map String.ofList := by
  rw [h.lookups_eq, List.map_map]
  rfl

/-- Passing text without letters adds no run of them. -/
theorem passes (h : s.Told) (hpass : s.Passes w t) (hw : ∀ c ∈ w, c.isLower = false) : t.Told := by
  have hbefore := hpass.cursor.before_eq
  have hapart : Apart Char.isLower s.cursor.before w :=
    fun _ _ c hc _ => hw c (List.mem_of_mem_head? hc)
  refine ⟨?_, ?_⟩
  · rw [hbefore, letterRuns_append hapart, letterRuns_eq_nil hw, List.append_nil, ← h.lookups_eq,
      hpass.eq]
  · rcases List.eq_nil_or_concat w with rfl | ⟨w, c, rfl⟩
    · rw [hpass.unique (.refl s)]
      exact h.apart
    -- The last character passed is not a letter.
    · intro last hlast next _ hlower
      rw [hbefore, List.concat_eq_append, ← List.append_assoc, List.getLast?_concat] at hlast
      obtain rfl := Option.some.inj hlast
      rw [hw c (by simp)] at hlower
      cases hlower

theorem skips {g : List Char} (h : s.Told) (hskip : s.Skips g t) : t.Told := by
  refine h.passes hskip.passes fun c hc => ?_
  rw [hskip.gap c hc]
  rfl

/-- Spaces and one symbol are no letters. -/
theorem passes_symbol {g : List Char} {c : Char} (h : s.Told) (hgap : Gap g)
    (hpass : s.Passes (g ++ [c]) t) (hc : c.isLower = false) : t.Told := by
  refine h.passes hpass fun x hx => ?_
  rcases List.mem_append.mp hx with hx | hx
  · rw [hgap x hx]
    rfl
  · rwa [List.mem_singleton.mp hx]

/-- Runs of digits and points are no letters. -/
theorem scans_numeral (h : s.Told) (hscan : s.Scans isNumeralChar run t) : t.Told :=
  h.passes hscan.passes fun c hc => isLower_eq_false_of_isNumeralChar (hscan.all c hc)

/-- A name that is scanned is a whole run of letters. -/
theorem wholeRun (h : s.Told) (hscan : s.Scans Char.isLower run t) (hrun : run ≠ []) :
    WholeRun Char.isLower s.cursor.before run t.cursor.rest := by
  obtain ⟨next, hpeek, hnext⟩ := hscan.peek_of_ne_nil hrun
  refine ⟨hrun, hscan.all, fun last hlast => ?_, hscan.stop⟩
  by_contra hlower
  rw [h.apart last hlast next hpeek (eq_true_of_ne_false hlower)] at hnext
  cases hnext

/-- The run of a name is the last one in front of the cursor behind it. -/
theorem letterRuns_scans (h : s.Told) (hscan : s.Scans Char.isLower run t) (hrun : run ≠ []) :
    letterRuns t.cursor.before = letterRuns s.cursor.before ++ [run] := by
  have hwhole := h.wholeRun hscan hrun
  have hend : WholeRun Char.isLower s.cursor.before run [] :=
    ⟨hwhole.ne_nil, hwhole.all, hwhole.left, by rintro c ⟨⟩⟩
  have hruns := letterRuns_of_wholeRun hend
  rwa [List.append_nil, letterRuns_nil, ← hscan.passes.cursor.before_eq] at hruns

/-- A name that is found is noted. -/
theorem scans_name (h : s.Told) (hscan : s.Scans Char.isLower run t) (hrun : run ≠ []) :
    (t.note ⟨String.ofList run, true⟩).Told := by
  refine ⟨?_, fun _ _ next hnext _ => hscan.stop next hnext⟩
  show (_ :: t.lookups).reverse = (letterRuns t.cursor.before).map _
  rw [h.letterRuns_scans hscan hrun, List.map_append, ← h.lookups_eq, List.reverse_cons,
    hscan.passes.eq]
  rfl

end State.Told

/-! ## What steps and runs note -/

theorem Stops.told (h : Stops rule s ⟨.ok e, t⟩) (hs : s.Told) : t.Told := by
  cases h with
  | more hskip => exact hs.skips hskip
  | power hskip => exact hs.skips hskip
  | numeral hscan => exact hs.scans_numeral hscan
  | constant hscan hrun => exact hs.scans_name hscan hrun
  | close hgap hpass => exact hs.passes_symbol hgap hpass (by decide)
  | done => exact hs

theorem Starts.told (h : Starts rule s r s₁ next) (hs : s.Told) : s₁.Told := by
  cases h with
  | chain => exact hs
  | @more level _ _ _ _ _ op hgap hpass hop =>
    obtain ⟨-, rfl⟩ := Level.operator?_eq_some_iff.mp hop
    exact hs.passes_symbol hgap hpass (by cases op <;> decide)
  | factor => exact ⟨hs.lookups_eq, hs.apart⟩
  | @sign _ _ _ _ sign hgap hpass hsign =>
    obtain rfl := Sign.ofChar?_eq_some_iff.mp hsign
    exact hs.passes_symbol hgap hpass (by cases sign <;> decide)
  | primary hskip => exact hs.skips hskip
  | power hgap hpass => exact hs.passes_symbol hgap hpass (by decide)
  | group hpass => exact hs.passes hpass (by simp)
  | call hscan hrun => exact hs.scans_name hscan hrun

/-- A run that succeeds has noted the names that it has passed. -/
theorem Runs.told (h : Runs rule s ⟨.ok e, t⟩) (hs : s.Told) : t.Told := by
  induction h using Runs.ok_induction with
  | stop hstop => exact hstop.told hs
  | next hstart _ _ ih ihnext => exact ihnext ((ih (hstart.told hs)).atDepth _)

/-- A step that fails traces the text in front of the failure. -/
theorem Stops.traces (h : Stops rule s ⟨.error f, t⟩) (hs : s.Told) :
    ∃ w rest, s.cursor.rest = w ++ rest ∧
      Outcome.Traces (.error f) (s.cursor.before ++ w) rest t.lookups.reverse ∧
      t.lookups.reverse.map Lookup.name =
        (letterRuns (s.cursor.before ++ w)).map String.ofList := by
  have hposition : byteLength (s.cursor.before ++ []) = s.cursor.position := by
    rw [List.append_nil, Cursor.position_eq_byteLength_before]
  have hnames : s.lookups.reverse.map Lookup.name =
      (letterRuns (s.cursor.before ++ [])).map String.ofList := by
    rw [List.append_nil, hs.names_eq]
  cases h with
  | tooDeep | unexpectedEnd | unexpectedCharacter =>
    exact ⟨[], _, rfl, ⟨hposition, hs.found⟩, hnames⟩
  -- The literal has been passed, but no name is in it.
  | malformedNumeral hscan =>
    rw [hscan.passes.eq]
    exact ⟨[], _, rfl, ⟨hposition, hs.found⟩, hnames⟩
  | @unknownName _ u run hscan hrun =>
    refine ⟨run, u.cursor.rest, hscan.passes.cursor.rest_eq,
      ⟨?_, s.lookups.reverse, ?_, hs.found⟩, ?_⟩
    · rw [byteLength_append, ← Cursor.position_eq_byteLength_before, utf8ByteSize_ofList]
    · rw [hscan.passes.eq]
      exact List.reverse_cons
    · show (_ :: u.lookups).reverse.map Lookup.name = _
      rw [← hscan.passes.cursor.before_eq, hs.letterRuns_scans hscan hrun, List.map_append,
        ← hs.names_eq, List.reverse_cons, List.map_append, hscan.passes.eq]
      rfl
  | unclosed hskip =>
    have ht := hs.skips hskip
    have hbefore := hskip.passes.cursor.before_eq
    refine ⟨_, _, hskip.passes.cursor.rest_eq, ?_⟩
    rw [← hbefore]
    exact ⟨⟨(Cursor.position_eq_byteLength_before _).symm, ht.found⟩, ht.names_eq⟩

/-- A parse traces its text. -/
theorem Parses.traces {limit : Nat} {text : List Char} {reply : Reply Expr}
    (h : Parses limit text reply) :
    ∃ consumed rest, text = consumed ++ rest ∧
      Outcome.Traces (reply.result.map Expr.value) consumed rest reply.state.lookups.reverse ∧
      reply.state.lookups.reverse.map Lookup.name =
        (letterRuns consumed).map String.ofList := by
  have hstart := State.Told.start limit text
  cases h with
  | @ok e s t g hrun hskip hend =>
    have ht := (hrun.told hstart).skips hskip
    obtain ⟨w, hw⟩ := hrun.reaches
    have hpass := hw.cursor.trans hskip.passes.cursor
    have hbefore : t.cursor.before = text := by
      rw [hpass.before_eq, ← List.append_nil (w ++ g), ← hend]
      exact hpass.rest_eq.symm
    refine ⟨t.cursor.before, [], by rw [hbefore, List.append_nil], ⟨rfl, ht.found⟩, ht.names_eq⟩
  | fail hrun =>
    obtain ⟨r, u, v, w, hstop, hu, hw, rfl⟩ :=
      hrun.exists_stops_of_invariant (P := fun _ u => u.Told) (fun hstart h => hstart.told h)
        (fun hstart hrun h => (hrun.told (hstart.told h)).atDepth _) hstart
    obtain ⟨x, rest, hrest, htraces, hnames⟩ := hstop.traces hu
    refine ⟨u.cursor.before ++ x, rest, ?_, htraces, hnames⟩
    have hbefore : u.cursor.before = w := hw.before_eq
    rw [hbefore, List.append_assoc, ← hrest]
    exact hw.cursor.rest_eq
  | @trailing e s t g hrun hskip =>
    have ht := (hrun.told hstart).skips hskip
    obtain ⟨w, hw⟩ := hrun.reaches
    have hpass := hw.cursor.trans hskip.passes.cursor
    refine ⟨t.cursor.before, t.cursor.rest, ?_,
      ⟨(Cursor.position_eq_byteLength_before _).symm, ht.found⟩, ht.names_eq⟩
    rw [hpass.before_eq]
    exact hpass.rest_eq

end Parser

open Calculator.Parser

/-- The events of an evaluation tell what happened: a lookup for each longest run of letters in the
text that was consumed, in the order of the text, and in the end the outcome, which is the value of
the text or the place and the wording of its failure. All names are found, unless the evaluation
failed for an unknown one, which is the last. -/
theorem Evaluation.events_eq_lookups_append (options : Options) (text : String) :
    ∃ (consumed rest : String) (lookups : List Lookup) (last : Event),
      text = consumed ++ rest ∧
      (Evaluation.of options text).events = lookups.map .resolved ++ [last] ∧
      lookups.map Lookup.name = (letterRuns consumed.toList).map String.ofList ∧
      Outcome.Traces (evaluate options text) consumed.toList rest.toList lookups ∧
      (∀ lookup ∈ lookups, (Event.resolved lookup).Says .trace "resolved identifier"
        [("name", .text lookup.name), ("found", .flag lookup.found)]) ∧
      Outcome.Closes text (evaluate options text) last := by
  obtain ⟨consumed, rest, htext, htraces, hnames⟩ :=
    (parses_parse options.maxDepth text.toList).traces
  refine ⟨String.ofList consumed, String.ofList rest, _, _, ?text, rfl, ?names, ?traces,
    fun lookup _ => Event.resolved_says lookup, Event.closes_closing text _⟩
  case text => rw [← String.ofList_append, ← htext, String.ofList_toList]
  case names =>
    rw [String.toList_ofList]
    exact hnames
  case traces =>
    rw [String.toList_ofList, String.toList_ofList]
    exact htraces

end Calculator
