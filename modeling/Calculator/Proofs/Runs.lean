import Calculator.Proofs.Passing

/-!
# Runs of the grammar rules

The rules of the grammar as a relation between the state in which a rule is started and its reply.
What a rule does first is told once for all rules: either it stops (`Stops`), or it starts another
rule and goes on with what that rule finds (`Starts`). A run is put together from such steps
(`Runs`), and `runs_iff` says that the runs of a rule are exactly what the rule replies. So a fact
about all rules is shown for one step, and then for a run by induction on the run.

## Main definitions

* `Rule`: the rules, and what is left of a rule once its first operand has been read.
* `Stops`, `Starts`: the steps.
* `Runs`, `Parses`: the runs of a rule, and of the whole parse.

## Main results

* `Stops.forall_passed`, `Starts.forall_passed`: the characters that steps pass.
* `Runs.reaches`, `Runs.depth_eq`, `Runs.limit_eq`: what every run keeps.
* `Runs.ok_induction`, `Runs.error_induction`: induction on the runs that succeed, or fail.
* `Runs.exists_stops`: a run that fails has come to a step that fails.
* `runs_iff`, `parses_iff`: runs and replies agree.
* `Starts.runs_cases`: a run that starts with a given step goes on with that step.
-/

namespace Calculator

/-- A letter is not part of a numeral. -/
theorem isNumeralChar_eq_false_of_isLower {c : Char} (h : c.isLower = true) :
    isNumeralChar c = false := by
  have h : (decide (c.val ≥ ('a' : Char).val) && decide (c.val ≤ ('z' : Char).val)) = true := h
  simp only [Bool.and_eq_true, decide_eq_true_eq, ge_iff_le, UInt32.le_iff_toNat_le] at h
  simp only [isNumeralChar, Char.isDigit, Bool.or_eq_false_iff, Bool.and_eq_false_iff,
    decide_eq_false_iff_not, ge_iff_le, UInt32.le_iff_toNat_le, beq_eq_false_iff_ne]
  have ha : ('a' : Char).val.toNat = 97 := rfl
  have h9 : ('9' : Char).val.toNat = 57 := rfl
  refine ⟨Or.inr (by omega), ?_⟩
  rintro rfl
  have hpoint : ('.' : Char).val.toNat = 46 := rfl
  omega

/-- A character of a numeral is no letter. -/
theorem isLower_eq_false_of_isNumeralChar {c : Char} (h : isNumeralChar c = true) :
    c.isLower = false := by
  rcases hlower : c.isLower with _ | _
  · rfl
  · rw [isNumeralChar_eq_false_of_isLower hlower] at h
    cases h

/-- A space is no operator. -/
theorem Level.ne_space_of_operator? {level : Level} {c : Char} {op : Operator}
    (h : level.operator? c = some op) : c ≠ ' ' := by
  rintro rfl
  cases level <;> simp [operator?] at h

/-- A space is no sign. -/
theorem Sign.ne_space_of_ofChar? {c : Char} {sign : Sign} (h : Sign.ofChar? c = some sign) :
    c ≠ ' ' := by
  rintro rfl
  simp [ofChar?] at h

/-- A name has letters only. -/
theorem Builtin.isLower_of_mem_name {b : Builtin} {c : Char} (h : c ∈ b.name.toList) :
    c.isLower = true := by
  have hall : b.name.toList.all Char.isLower = true := by
    obtain c | f := b
    · cases c <;> rfl
    · cases f <;> rfl
  exact List.all_eq_true.mp hall c h

/-- A name is not empty. -/
theorem Builtin.name_ne_nil (b : Builtin) : b.name.toList ≠ [] := by
  obtain c | f := b
  · cases c <;> decide
  · cases f <;> decide

/-- A run of letters is looked up as `b` exactly if it is the name of `b`. -/
theorem Builtin.lookup?_ofList_eq_some_iff {run : List Char} {b : Builtin} :
    Builtin.lookup? (String.ofList run) = some b ↔ run = b.name.toList := by
  rw [Builtin.lookup?_eq_some_iff]
  constructor
  · rintro h
    rw [h, String.toList_ofList]
  · rintro rfl
    simp

namespace Parser

/-- The same state with another number of open factors. -/
def State.atDepth (depth : Nat) (s : State) : State :=
  { s with depth }

/-- The same state with one more name looked up. -/
def State.note (lookup : Lookup) (s : State) : State :=
  { s with lookups := lookup :: s.lookups }

namespace State

variable {s t : State} {w : List Char}

theorem atDepth_of_eq {depth : Nat} (h : s.depth = depth) : s.atDepth depth = s := by
  subst h
  rfl

theorem Reaches.note (lookup : Lookup) (h : s.Reaches w t) : s.Reaches w (t.note lookup) :=
  ⟨h.cursor, h.depth_eq, h.limit_eq⟩

theorem Reaches.atDepth {depth : Nat} (h : s.Reaches w t) :
    (s.atDepth depth).Reaches w (t.atDepth depth) :=
  ⟨h.cursor, rfl, h.limit_eq⟩

/-- A state keeps its place when it goes back to the depth of an earlier one. -/
theorem Reaches.restore (h : s.Reaches w t) : s.Reaches w (t.atDepth s.depth) := by
  rwa [atDepth_of_eq h.depth_eq]

@[simp]
theorem remaining_note (lookup : Lookup) (s : State) :
    (s.note lookup).remaining = s.remaining := rfl

theorem Passes.remaining_eq (h : s.Passes w t) : s.remaining = w.length + t.remaining := by
  rw [remaining, h.cursor.rest_eq, List.length_append, remaining]

theorem Reaches.remaining_le (h : s.Reaches w t) : t.remaining ≤ s.remaining := by
  rw [remaining, remaining, h.cursor.rest_eq, List.length_append]
  omega

theorem lookUp_eq_note (s : State) :
    s.lookUp =
      (s.skipWhile Char.isLower).note ⟨s.word, (Builtin.lookup? s.word).isSome⟩ := rfl

theorem Scans.peek_of_ne_nil {accept : Char → Bool} {run : List Char} (h : s.Scans accept run t)
    (hrun : run ≠ []) : ∃ next, s.peek = some next ∧ accept next = true := by
  rcases run with _ | ⟨next, run⟩
  · exact absurd rfl hrun
  · exact ⟨next, h.passes.peek_eq, h.all next List.mem_cons_self⟩

/-- Where a character of a class comes next, the longest run of the class is not empty. -/
theorem run_ne_nil {accept : Char → Bool} {next : Char} (hpeek : s.peek = some next)
    (hnext : accept next = true) : s.run accept ≠ [] := by
  intro hrun
  have hscan := scans_run accept s
  rw [hrun] at hscan
  have hfalse : accept next = false := by
    refine hscan.stop next ?_
    rwa [hscan.passes.unique (.refl s)]
  rw [hnext] at hfalse
  exact Bool.noConfusion hfalse

end State

section OpenPrimary

variable {s : State} {next : Char}

theorem openPrimary_of_paren (hpeek : s.peek = some '(') :
    openPrimary s =
      (chain .sum s.advance).reply.andThen fun inner t => (close inner t).reply := by
  simp [openPrimary, hpeek]

theorem openPrimary_of_isNumeralChar (hpeek : s.peek = some next)
    (hnext : isNumeralChar next = true) : openPrimary s = (numeral s).reply := by
  have hparen : next ≠ '(' := by
    rintro rfl
    simp [isNumeralChar] at hnext
  simp [openPrimary, hpeek, hparen, hnext]

theorem openPrimary_of_isLower (hpeek : s.peek = some next) (hnext : next.isLower = true) :
    openPrimary s = openName s := by
  have hparen : next ≠ '(' := by
    rintro rfl
    simp at hnext
  have hnumeral := isNumeralChar_eq_false_of_isLower hnext
  simp [openPrimary, hpeek, hparen, hnumeral, hnext]

end OpenPrimary

/-- What a parse can be about to do. -/
inductive Rule where
  /-- Read a chain of operands. -/
  | chain (level : Level)
  /-- Go on with a chain behind its left operand. -/
  | more (level : Level) (left : Expr)
  /-- Read a factor. -/
  | factor
  /-- Read a factor that has been opened. -/
  | openFactor
  /-- Go on with a factor behind its primary. -/
  | openPower (base : Expr)
  /-- Read a primary that starts here. -/
  | openPrimary
  /-- Go on with a group behind its content. -/
  | close (inner : Expr)
  /-- Hand out what has been read. -/
  | done (e : Expr)

namespace Rule

/-- The rule for the operands of a level. -/
def operand : Level → Rule
  | .sum => .chain .product
  | .product => .factor

/-- What a rule replies. -/
def reply : Rule → State → Reply Expr
  | .chain level, s => (Parser.chain level s).reply
  | .more level left, s => (Parser.more level left s).reply
  | .factor, s => (Parser.factor s).reply
  | .openFactor, s => Parser.openFactor s
  | .openPower base, s => Parser.openPower base s
  | .openPrimary, s => Parser.openPrimary s
  | .close inner, s => (Parser.close inner s).reply
  | .done e, s => ⟨.ok e, s⟩

/-- The place of a rule in the order in which rules start each other without passing a character. -/
def rank : Rule → Nat
  | .chain .sum => 5
  | .chain .product => 4
  | .factor => 3
  | .openFactor => 2
  | .openPrimary => 1
  | _ => 0

theorem reply_operand (level : Level) (s : State) :
    (operand level).reply s = (Parser.operand level s).reply := by
  cases level
  · exact (reply_operand_sum s).symm
  · exact (reply_operand_product s).symm

end Rule

/-! ## Steps -/

/-- A rule stops at once, with this reply. -/
inductive Stops : Rule → State → Reply Expr → Prop
  -- No operator of the level follows the operands read so far.
  | more {level : Level} {left : Expr} {s t : State} {g : List Char} (hskip : s.Skips g t)
      (hop : t.next? level.operator? = none) : Stops (.more level left) s ⟨.ok left, t⟩
  -- As many factors are open as may be. Spaces in front of the factor have not been skipped.
  | tooDeep {s : State} (hdepth : s.limit ≤ s.depth) :
      Stops .factor s ⟨.error ⟨.nestingTooDeep s.limit, s.cursor.position⟩, s⟩
  -- No power follows the base.
  | power {base : Expr} {s t : State} {g : List Char} (hskip : s.Skips g t)
      (hcaret : t.peek ≠ some '^') : Stops (.openPower base) s ⟨.ok base, t⟩
  -- Neither a parenthesis nor a number nor a name comes next.
  | unexpectedEnd {s : State} (hpeek : s.peek = none) :
      Stops .openPrimary s ⟨.error ⟨.unexpectedEnd, s.cursor.position⟩, s⟩
  | unexpectedCharacter {s : State} {next : Char} (hpeek : s.peek = some next)
      (hparen : next ≠ '(') (hnumeral : isNumeralChar next = false)
      (hlower : next.isLower = false) :
      Stops .openPrimary s ⟨.error ⟨.unexpectedCharacter next, s.cursor.position⟩, s⟩
  -- A number, or a run of digits and points that is none.
  | numeral {s t : State} {run : List Char} {n : Numeral} (hscan : s.Scans isNumeralChar run t)
      (hrun : run ≠ []) (hn : Numeral.ofRun? run = some n) :
      Stops .openPrimary s ⟨.ok (.numeral n), t⟩
  | malformedNumeral {s t : State} {run : List Char} (hscan : s.Scans isNumeralChar run t)
      (hrun : run ≠ []) (hn : Numeral.ofRun? run = none) :
      Stops .openPrimary s
        ⟨.error ⟨.malformedNumeral (String.ofList run), s.cursor.position⟩, t⟩
  -- The name of a constant, or one that is unknown. Either is noted.
  | constant {s t : State} {run : List Char} {c : Constant} (hscan : s.Scans Char.isLower run t)
      (hrun : run ≠ []) (hc : Builtin.lookup? (String.ofList run) = some (.constant c)) :
      Stops .openPrimary s ⟨.ok (.constant c), t.note ⟨String.ofList run, true⟩⟩
  | unknownName {s t : State} {run : List Char} (hscan : s.Scans Char.isLower run t)
      (hrun : run ≠ []) (hname : Builtin.lookup? (String.ofList run) = none) :
      Stops .openPrimary s
        ⟨.error ⟨.unknownName (String.ofList run), s.cursor.position⟩,
          t.note ⟨String.ofList run, false⟩⟩
  -- The expression of a group has ended, at its parenthesis or elsewhere.
  | close {inner : Expr} {s t : State} {g : List Char} (hgap : Gap g)
      (hpass : s.Passes (g ++ [')']) t) : Stops (.close inner) s ⟨.ok (.group inner), t⟩
  | unclosed {inner : Expr} {s t : State} {g : List Char} (hskip : s.Skips g t)
      (hparen : t.peek ≠ some ')') :
      Stops (.close inner) s ⟨.error ⟨.unclosedGroup, t.cursor.position⟩, t⟩
  | done {e : Expr} {s : State} : Stops (.done e) s ⟨.ok e, s⟩

/-- A rule starts another one, and goes on with a rule that depends on what the other one finds. -/
inductive Starts : Rule → State → Rule → State → (Expr → Rule) → Prop
  | chain {level : Level} {s : State} :
      Starts (.chain level) s (.operand level) s (.more level)
  | more {level : Level} {left : Expr} {s t : State} {g : List Char} {c : Char} {op : Operator}
      (hgap : Gap g) (hpass : s.Passes (g ++ [c]) t) (hop : level.operator? c = some op) :
      Starts (.more level left) s (.operand level) t fun right =>
        .more level (.binary op left right)
  -- The only step that opens a factor.
  | factor {s : State} (hdepth : s.depth < s.limit) :
      Starts .factor s .openFactor s.enter .done
  -- A factor in a factor is opened by a sign, by the caret of a power or by a function.
  | sign {s t : State} {g : List Char} {c : Char} {sign : Sign} (hgap : Gap g)
      (hpass : s.Passes (g ++ [c]) t) (hsign : Sign.ofChar? c = some sign) :
      Starts .openFactor s .factor t fun operand => .done (.signed sign operand)
  | primary {s t : State} {g : List Char} (hskip : s.Skips g t)
      (hsign : t.next? Sign.ofChar? = none) : Starts .openFactor s .openPrimary t .openPower
  | power {base : Expr} {s t : State} {g : List Char} (hgap : Gap g)
      (hpass : s.Passes (g ++ ['^']) t) :
      Starts (.openPower base) s .factor t fun exponent => .done (.power base exponent)
  | group {s t : State} (hpass : s.Passes ['('] t) :
      Starts .openPrimary s (.chain .sum) t .close
  | call {s t : State} {run : List Char} {f : UnaryFunction} (hscan : s.Scans Char.isLower run t)
      (hrun : run ≠ []) (hf : Builtin.lookup? (String.ofList run) = some (.function f)) :
      Starts .openPrimary s .factor (t.note ⟨String.ofList run, true⟩) fun argument =>
        .done (.call f argument)

/-- The runs of a rule. A rule goes on as deep as it was started, whatever the rules that it has
started in between. -/
inductive Runs : Rule → State → Reply Expr → Prop
  | stop {rule : Rule} {s : State} {reply : Reply Expr} (hstop : Stops rule s reply) :
      Runs rule s reply
  -- The first failure is that of the whole.
  | fail {rule r : Rule} {s s₁ t : State} {next : Expr → Rule} {f : Failure}
      (hstart : Starts rule s r s₁ next) (hrun : Runs r s₁ ⟨.error f, t⟩) :
      Runs rule s ⟨.error f, t.atDepth s.depth⟩
  | next {rule r : Rule} {s s₁ t : State} {next : Expr → Rule} {e : Expr} {reply : Reply Expr}
      (hstart : Starts rule s r s₁ next) (hrun : Runs r s₁ ⟨.ok e, t⟩)
      (hnext : Runs (next e) (t.atDepth s.depth) reply) : Runs rule s reply

variable {rule r : Rule} {s s₁ t : State} {next : Expr → Rule} {reply reply' : Reply Expr}
  {f : Failure}

/-! ## What steps and runs keep -/

section Passed

variable {P : Char → Prop}

/-- What holds of the characters of numbers and names, of the space and of a closing parenthesis,
holds of all characters that are passed by a rule that stops. -/
theorem Stops.forall_passed (hspace : P ' ') (hnumeral : ∀ c, isNumeralChar c = true → P c)
    (hlower : ∀ c, c.isLower = true → P c) (hclose : P ')') (h : Stops rule s reply) :
    ∃ w, s.Reaches w reply.state ∧ ∀ c ∈ w, P c := by
  cases h with
  | more hskip | power hskip | unclosed hskip =>
    exact ⟨_, hskip.passes.reaches, hskip.gap.forall_mem hspace⟩
  | tooDeep | unexpectedEnd | unexpectedCharacter | done =>
    exact ⟨[], .refl _, List.forall_mem_nil P⟩
  | numeral hscan | malformedNumeral hscan =>
    exact ⟨_, hscan.passes.reaches, fun c hc => hnumeral c (hscan.all c hc)⟩
  | constant hscan | unknownName hscan =>
    exact ⟨_, hscan.passes.reaches.note _, fun c hc => hlower c (hscan.all c hc)⟩
  | close hgap hpass => exact ⟨_, hpass.reaches, hgap.forall_mem_concat hspace hclose⟩

/-- What holds of the characters of operators, signs and names, of the space and of a caret, holds
of all characters that are passed by a rule that starts another one. An opening parenthesis is
passed by a primary only. -/
theorem Starts.forall_passed (hspace : P ' ')
    (hop : ∀ {level : Level} {c op}, level.operator? c = some op → P c)
    (hsign : ∀ {c sign}, Sign.ofChar? c = some sign → P c) (hlower : ∀ c, c.isLower = true → P c)
    (hcaret : P '^') (hopen : rule = .openPrimary → s.Passes ['('] s₁ → P '(')
    (h : Starts rule s r s₁ next) :
    ∃ w, s.Reaches w (s₁.atDepth s.depth) ∧ ∀ c ∈ w, P c := by
  cases h with
  | chain | factor => exact ⟨[], .refl _, List.forall_mem_nil P⟩
  | more hgap hpass hc =>
    exact ⟨_, hpass.reaches.restore, hgap.forall_mem_concat hspace (hop hc)⟩
  | sign hgap hpass hc =>
    exact ⟨_, hpass.reaches.restore, hgap.forall_mem_concat hspace (hsign hc)⟩
  | primary hskip => exact ⟨_, hskip.passes.reaches.restore, hskip.gap.forall_mem hspace⟩
  | power hgap hpass =>
    exact ⟨_, hpass.reaches.restore, hgap.forall_mem_concat hspace hcaret⟩
  | group hpass =>
    exact ⟨_, hpass.reaches.restore, List.forall_mem_singleton.mpr (hopen rfl hpass)⟩
  | call hscan =>
    exact ⟨_, (hscan.passes.reaches.note _).restore, fun c hc => hlower c (hscan.all c hc)⟩

end Passed

/-- A rule that stops has passed some text and opened no factor. -/
theorem Stops.reaches (h : Stops rule s reply) : ∃ w, s.Reaches w reply.state := by
  obtain ⟨w, hw, -⟩ := h.forall_passed (P := fun _ => True) trivial (fun _ _ => trivial)
    (fun _ _ => trivial) trivial
  exact ⟨w, hw⟩

/-- A rule that starts another one has passed some text before. -/
theorem Starts.reaches (h : Starts rule s r s₁ next) :
    ∃ w, s.Reaches w (s₁.atDepth s.depth) := by
  obtain ⟨w, hw, -⟩ := h.forall_passed (P := fun _ => True) trivial (fun _ => trivial)
    (fun _ => trivial) (fun _ _ => trivial) trivial fun _ _ => trivial
  exact ⟨w, hw⟩

theorem Starts.limit_eq (h : Starts rule s r s₁ next) : s₁.limit = s.limit := by
  obtain ⟨w, hw⟩ := h.reaches
  exact hw.limit_eq

/-- Only opening a factor opens one. -/
theorem Starts.depth_eq (h : Starts rule s r s₁ next) (hrule : rule ≠ .factor) :
    s₁.depth = s.depth := by
  cases h with
  | chain => rfl
  | more _ hpass => exact hpass.depth_eq
  | factor => exact absurd rfl hrule
  | sign _ hpass => exact hpass.depth_eq
  | primary hskip => exact hskip.passes.depth_eq
  | power _ hpass => exact hpass.depth_eq
  | group hpass => exact hpass.depth_eq
  | call hscan => exact hscan.passes.depth_eq

/-- A rule that ends has passed some text, and has closed the factors that it has opened. -/
theorem Runs.reaches (h : Runs rule s reply) : ∃ w, s.Reaches w reply.state := by
  induction h with
  | stop hstop => exact hstop.reaches
  | fail hstart _ ih =>
    obtain ⟨v, hv⟩ := hstart.reaches
    obtain ⟨w, hw⟩ := ih
    exact ⟨v ++ w, hv.trans hw.atDepth⟩
  | next hstart _ _ ih ihnext =>
    obtain ⟨v, hv⟩ := hstart.reaches
    obtain ⟨w, hw⟩ := ih
    obtain ⟨x, hx⟩ := ihnext
    exact ⟨v ++ w ++ x, (hv.trans hw.atDepth).trans hx⟩

theorem Runs.depth_eq (h : Runs rule s reply) : reply.state.depth = s.depth := by
  obtain ⟨w, hw⟩ := h.reaches
  exact hw.depth_eq

theorem Runs.limit_eq (h : Runs rule s reply) : reply.state.limit = s.limit := by
  obtain ⟨w, hw⟩ := h.reaches
  exact hw.limit_eq

/-- A rule goes on under the limit under which it was started. -/
theorem Starts.limit_next (hstart : Starts rule s r s₁ next) (h : Runs r s₁ reply) :
    (reply.state.atDepth s.depth).limit = s.limit :=
  h.limit_eq.trans hstart.limit_eq

/-- What is left to come behind a run was left to come in front of it. -/
theorem Runs.rest_suffix (h : Runs rule s reply) :
    reply.state.cursor.rest <:+ s.cursor.rest := by
  obtain ⟨w, hw⟩ := h.reaches
  exact ⟨w, hw.cursor.rest_eq.symm⟩

/-! ## Induction on runs that succeed, and on runs that fail -/

/-- What holds of the steps that succeed, and is kept by going on with another rule, holds of the
runs that succeed. -/
theorem Runs.ok_induction
    {motive : ∀ (rule : Rule) (s t : State) (e : Expr), Runs rule s ⟨.ok e, t⟩ → Prop}
    (stop : ∀ {rule s t e} (hstop : Stops rule s ⟨.ok e, t⟩), motive rule s t e (.stop hstop))
    (next : ∀ {rule r s s₁ u t next e e'} (hstart : Starts rule s r s₁ next)
      (hrun : Runs r s₁ ⟨.ok e, u⟩) (hnext : Runs (next e) (u.atDepth s.depth) ⟨.ok e', t⟩),
      motive r s₁ u e hrun → motive (next e) (u.atDepth s.depth) t e' hnext →
      motive rule s t e' (.next hstart hrun hnext))
    {rule s t e} (h : Runs rule s ⟨.ok e, t⟩) : motive rule s t e h := by
  -- The reply is generalized, and kept as an equation.
  suffices key : ∀ {rule s reply} (h : Runs rule s reply) {t e} (heq : reply = ⟨.ok e, t⟩),
      motive rule s t e (heq ▸ h) from key h rfl
  intro rule s reply h
  induction h with
  | stop hstop =>
    rintro t e rfl
    exact stop hstop
  | fail => rintro t e ⟨⟩
  | next hstart hrun hnext ih ihnext =>
    rintro t e rfl
    exact next hstart hrun hnext (ih rfl) (ihnext rfl)

/-- What holds of the steps that fail with `f`, and of a rule if it holds of the rule that fails
within it or behind it, holds of the runs that fail with `f`. -/
theorem Runs.error_induction {f : Failure}
    {motive : ∀ (rule : Rule) (s t : State), Runs rule s ⟨.error f, t⟩ → Prop}
    (stop : ∀ {rule s t} (hstop : Stops rule s ⟨.error f, t⟩), motive rule s t (.stop hstop))
    (fail : ∀ {rule r s s₁ t next} (hstart : Starts rule s r s₁ next)
      (hrun : Runs r s₁ ⟨.error f, t⟩),
      motive r s₁ t hrun → motive rule s (t.atDepth s.depth) (.fail hstart hrun))
    (next : ∀ {rule r s s₁ u t next e} (hstart : Starts rule s r s₁ next)
      (hrun : Runs r s₁ ⟨.ok e, u⟩) (hnext : Runs (next e) (u.atDepth s.depth) ⟨.error f, t⟩),
      motive (next e) (u.atDepth s.depth) t hnext → motive rule s t (.next hstart hrun hnext))
    {rule s t} (h : Runs rule s ⟨.error f, t⟩) : motive rule s t h := by
  suffices key : ∀ {rule s reply} (h : Runs rule s reply) {t} (heq : reply = ⟨.error f, t⟩),
      motive rule s t (heq ▸ h) from key h rfl
  intro rule s reply h
  induction h with
  | stop hstop =>
    rintro t rfl
    exact stop hstop
  | fail hstart hrun ih =>
    intro t heq
    obtain ⟨⟨rfl⟩, rfl⟩ := Reply.mk.inj heq
    exact fail hstart hrun (ih rfl)
  | next hstart hrun hnext _ ihnext =>
    rintro t rfl
    exact next hstart hrun hnext (ihnext rfl)

/-- What is kept by starting rules and by going on with rules holds where a run has failed. The run
has closed the factors that it had opened before. -/
theorem Runs.exists_stops_of_invariant {P : Rule → State → Prop}
    (hstarts : ∀ {rule r s s₁ next}, Starts rule s r s₁ next → P rule s → P r s₁)
    (hgoes : ∀ {rule r s s₁ t next e}, Starts rule s r s₁ next → Runs r s₁ ⟨.ok e, t⟩ →
      P rule s → P (next e) (t.atDepth s.depth))
    (h : Runs rule s ⟨.error f, t⟩) (hs : P rule s) :
    ∃ r u v w, Stops r u ⟨.error f, v⟩ ∧ P r u ∧ s.Reaches w (u.atDepth s.depth) ∧
      t = v.atDepth s.depth := by
  induction h using Runs.error_induction with
  | @stop rule s t hstop =>
    obtain ⟨w, hw⟩ := hstop.reaches
    exact ⟨rule, s, t, [], hstop, hs, .refl s, (State.atDepth_of_eq hw.depth_eq).symm⟩
  | fail hstart _ ih =>
    obtain ⟨x, hx⟩ := hstart.reaches
    obtain ⟨r, u, v, w, hstop, hu, hw, rfl⟩ := ih (hstarts hstart hs)
    exact ⟨r, u, v, x ++ w, hstop, hu, hx.trans hw.atDepth, rfl⟩
  | next hstart hrun _ ih =>
    obtain ⟨x, hx⟩ := hstart.reaches
    obtain ⟨y, hy⟩ := hrun.reaches
    obtain ⟨r, u, v, w, hstop, hu, hw, rfl⟩ := ih (hgoes hstart hrun hs)
    exact ⟨r, u, v, x ++ y ++ w, hstop, hu, (hx.trans hy.atDepth).trans hw, rfl⟩

/-- A run that fails has come to a step that fails under the same limit. -/
theorem Runs.exists_stops (h : Runs rule s ⟨.error f, t⟩) :
    ∃ r u v, Stops r u ⟨.error f, v⟩ ∧ u.limit = s.limit ∧ t = v.atDepth s.depth := by
  obtain ⟨r, u, v, w, hstop, hlimit, -, ht⟩ :=
    h.exists_stops_of_invariant (P := fun _ u => u.limit = s.limit)
      (fun hstart hs => hstart.limit_eq.trans hs)
      (fun hstart hrun hs => (hstart.limit_next hrun).trans hs) rfl
  exact ⟨r, u, v, hstop, hlimit, ht⟩

/-! ## Runs and replies agree -/

theorem Stops.reply_eq (h : Stops rule s reply) : rule.reply s = reply := by
  cases h with
  | more hskip hop =>
    rw [Rule.reply, reply_more, ← hskip.eq_skipSpaces, hop]
  | tooDeep hdepth =>
    rw [Rule.reply, reply_factor, if_neg (Nat.not_lt.mpr hdepth)]
  | power hskip hcaret =>
    rw [Rule.reply, openPower, State.eat_eq, ← hskip.eq_skipSpaces, if_neg hcaret]
  | unexpectedEnd hpeek => rw [Rule.reply, openPrimary, hpeek]
  | unexpectedCharacter hpeek hparen hnumeral hlower =>
    simp [Rule.reply, openPrimary, hpeek, hparen, hnumeral, hlower]
  | numeral hscan hrun hn =>
    obtain ⟨next, hpeek, hnext⟩ := hscan.peek_of_ne_nil hrun
    obtain ⟨rfl, rfl⟩ := hscan.eq
    rw [Rule.reply, openPrimary_of_isNumeralChar hpeek hnext, reply_numeral, hn]
  | malformedNumeral hscan hrun hn =>
    obtain ⟨next, hpeek, hnext⟩ := hscan.peek_of_ne_nil hrun
    obtain ⟨rfl, rfl⟩ := hscan.eq
    rw [Rule.reply, openPrimary_of_isNumeralChar hpeek hnext, reply_numeral, hn]
  | @constant s _ _ _ hscan hrun hc =>
    obtain ⟨next, hpeek, hnext⟩ := hscan.peek_of_ne_nil hrun
    obtain ⟨rfl, rfl⟩ := hscan.eq
    have hc : Builtin.lookup? s.word = some (.constant _) := hc
    rw [Rule.reply, openPrimary_of_isLower hpeek hnext, openName, hc, State.lookUp_eq_note, hc]
    rfl
  | @unknownName s _ _ hscan hrun hname =>
    obtain ⟨next, hpeek, hnext⟩ := hscan.peek_of_ne_nil hrun
    obtain ⟨rfl, rfl⟩ := hscan.eq
    have hname : Builtin.lookup? s.word = none := hname
    rw [Rule.reply, openPrimary_of_isLower hpeek hnext, openName, hname, State.lookUp_eq_note,
      hname]
    rfl
  | close hgap hpass =>
    obtain ⟨hpeek, rfl⟩ := hpass.eq_skipSpaces_advance hgap (by decide)
    rw [Rule.reply, reply_close, State.eat_eq, if_pos hpeek]
  | unclosed hskip hparen =>
    rw [Rule.reply, reply_close, State.eat_eq, ← hskip.eq_skipSpaces, if_neg hparen]
  | done => rfl

theorem openPrimary_stops_or_starts (s : State) :
    (∃ reply, Stops .openPrimary s reply) ∨ ∃ r s₁ next, Starts .openPrimary s r s₁ next := by
  rcases hpeek : s.peek with _ | next
  · exact Or.inl ⟨_, .unexpectedEnd hpeek⟩
  by_cases hparen : next = '('
  · subst hparen
    exact Or.inr ⟨_, _, _, .group (State.passes_advance hpeek)⟩
  rcases hnumeral : isNumeralChar next with _ | _
  · rcases hlower : next.isLower with _ | _
    · exact Or.inl ⟨_, .unexpectedCharacter hpeek hparen hnumeral hlower⟩
    · have hscan := State.scans_run Char.isLower s
      have hrun := State.run_ne_nil hpeek hlower
      rcases hname : Builtin.lookup? s.word with _ | c | f
      · exact Or.inl ⟨_, .unknownName hscan hrun hname⟩
      · exact Or.inl ⟨_, .constant hscan hrun hname⟩
      · exact Or.inr ⟨_, _, _, .call hscan hrun hname⟩
  · have hscan := State.scans_run isNumeralChar s
    have hrun := State.run_ne_nil hpeek hnumeral
    rcases hn : Numeral.ofRun? (s.run isNumeralChar) with _ | n
    · exact Or.inl ⟨_, .malformedNumeral hscan hrun hn⟩
    · exact Or.inl ⟨_, .numeral hscan hrun hn⟩

/-- Going on at the depth where a rule was started, with the reply of the rule started there. -/
def Reply.resume (depth : Nat) (reply : Reply Expr) (next : Expr → Rule) : Reply Expr :=
  Reply.andThen ⟨reply.result, reply.state.atDepth depth⟩ fun e t => (next e).reply t

theorem Reply.resume_of_depth_eq {depth : Nat} (h : reply.state.depth = depth) :
    reply.resume depth next = reply.andThen fun e t => (next e).reply t := by
  rw [resume, State.atDepth_of_eq h]

/-- What a rule replies, in terms of what the rule started by it replies. -/
theorem Starts.reply_eq (h : Starts rule s r s₁ next)
    (hdepth : (r.reply s₁).state.depth = s₁.depth) :
    rule.reply s = (r.reply s₁).resume s.depth next := by
  cases h with
  | @chain level =>
    rw [Reply.resume_of_depth_eq hdepth, Rule.reply_operand]
    exact reply_chain level s
  | @more level _ _ _ _ c op hgap hpass hop =>
    have hc := Level.ne_space_of_operator? hop
    rw [Reply.resume_of_depth_eq (hdepth.trans hpass.depth_eq), Rule.reply_operand]
    obtain ⟨hpeek, rfl⟩ := hpass.eq_skipSpaces_advance hgap hc
    have hnext : s.skipSpaces.next? level.operator? = some op := by
      rw [State.next?, hpeek, Option.bind_some, hop]
    rw [Rule.reply, reply_more, hnext]
    rfl
  | factor hlt =>
    have hdepth : (openFactor s.enter).state.depth = s.depth + 1 := hdepth
    have hleave :
        (openFactor s.enter).state.leave = (openFactor s.enter).state.atDepth s.depth := by
      rw [State.leave, State.atDepth, hdepth, Nat.add_sub_cancel]
    show (Parser.factor s).reply = (openFactor s.enter).resume s.depth .done
    rw [reply_factor, if_pos hlt, hleave, Reply.resume]
    rcases openFactor s.enter with ⟨_ | _, t⟩ <;> rfl
  | @sign _ _ _ c sign hgap hpass hsign =>
    have hc := Sign.ne_space_of_ofChar? hsign
    rw [Reply.resume_of_depth_eq (hdepth.trans hpass.depth_eq)]
    obtain ⟨hpeek, rfl⟩ := hpass.eq_skipSpaces_advance hgap hc
    have hnext : s.skipSpaces.next? Sign.ofChar? = some sign := by
      rw [State.next?, hpeek, Option.bind_some, hsign]
    show openFactor s = _
    rw [openFactor, hnext]
    rfl
  | primary hskip hsign =>
    rw [Reply.resume_of_depth_eq (hdepth.trans hskip.passes.depth_eq)]
    show openFactor s = _
    rw [openFactor, ← hskip.eq_skipSpaces, hsign, reply_primary,
      ← (State.skips_refl hskip.stop).eq_skipSpaces]
    rfl
  | @power base _ _ _ hgap hpass =>
    rw [Reply.resume_of_depth_eq (hdepth.trans hpass.depth_eq)]
    obtain ⟨hpeek, rfl⟩ := hpass.eq_skipSpaces_advance hgap (by decide)
    show openPower base s = _
    rw [openPower, State.eat_eq, if_pos hpeek]
    rfl
  | group hpass =>
    rw [Reply.resume_of_depth_eq (hdepth.trans hpass.depth_eq), hpass.eq_advance]
    exact openPrimary_of_paren hpass.peek_eq
  | @call _ _ _ f hscan hrun hf =>
    obtain ⟨next, hpeek, hnext⟩ := hscan.peek_of_ne_nil hrun
    rw [Reply.resume_of_depth_eq (hdepth.trans hscan.passes.depth_eq)]
    obtain ⟨rfl, rfl⟩ := hscan.eq
    have hf : Builtin.lookup? s.word = some (.function f) := hf
    show openPrimary s = _
    rw [openPrimary_of_isLower hpeek hnext, openName, hf, State.lookUp_eq_note, hf]
    rfl

/-- A rule either stops or starts another one. -/
theorem stops_or_starts (rule : Rule) (s : State) :
    (∃ reply, Stops rule s reply) ∨ ∃ r s₁ next, Starts rule s r s₁ next := by
  obtain ⟨g, hskip⟩ := s.skips_skipSpaces
  cases rule with
  | chain level => exact Or.inr ⟨_, _, _, .chain⟩
  | more level left =>
    rcases hop : s.skipSpaces.next? level.operator? with _ | op
    · exact Or.inl ⟨_, .more hskip hop⟩
    · obtain ⟨c, hpeek, hc⟩ := Option.bind_eq_some_iff.mp hop
      obtain ⟨g, hgap, hpass⟩ := State.passes_skipSpaces_advance hpeek
      exact Or.inr ⟨_, _, _, .more hgap hpass hc⟩
  | factor =>
    rcases Nat.lt_or_ge s.depth s.limit with h | h
    · exact Or.inr ⟨_, _, _, .factor h⟩
    · exact Or.inl ⟨_, .tooDeep h⟩
  | openFactor =>
    rcases hsign : s.skipSpaces.next? Sign.ofChar? with _ | sign
    · exact Or.inr ⟨_, _, _, .primary hskip hsign⟩
    · obtain ⟨c, hpeek, hc⟩ := Option.bind_eq_some_iff.mp hsign
      obtain ⟨g, hgap, hpass⟩ := State.passes_skipSpaces_advance hpeek
      exact Or.inr ⟨_, _, _, .sign hgap hpass hc⟩
  | openPower base =>
    by_cases hpeek : s.skipSpaces.peek = some '^'
    · obtain ⟨g, hgap, hpass⟩ := State.passes_skipSpaces_advance hpeek
      exact Or.inr ⟨_, _, _, .power hgap hpass⟩
    · exact Or.inl ⟨_, .power hskip hpeek⟩
  | openPrimary => exact openPrimary_stops_or_starts s
  | close inner =>
    by_cases hpeek : s.skipSpaces.peek = some ')'
    · obtain ⟨g, hgap, hpass⟩ := State.passes_skipSpaces_advance hpeek
      exact Or.inl ⟨_, .close hgap hpass⟩
    · exact Or.inl ⟨_, .unclosed hskip hpeek⟩
  | done e => exact Or.inl ⟨_, .done⟩

/-- A rule that starts another one comes later than that one in the order in which rules end. -/
theorem Starts.measure_lt (h : Starts rule s r s₁ next) :
    6 * s₁.remaining + r.rank < 6 * s.remaining + rule.rank := by
  cases h with
  | @chain level => cases level <;> simp [Rule.operand, Rule.rank]
  | @more level _ _ _ g _ _ _ hpass =>
    have hlen := hpass.remaining_eq
    rw [List.length_append, List.length_singleton] at hlen
    cases level <;> simp only [Rule.operand, Rule.rank] <;> omega
  | factor => simp [Rule.rank]
  | sign _ hpass =>
    have hlen := hpass.remaining_eq
    rw [List.length_append, List.length_singleton] at hlen
    simp only [Rule.rank]
    omega
  | primary hskip =>
    have hlen := hskip.passes.remaining_eq
    simp only [Rule.rank]
    omega
  | power _ hpass =>
    have hlen := hpass.remaining_eq
    rw [List.length_append, List.length_singleton] at hlen
    simp only [Rule.rank]
    omega
  | group hpass =>
    have hlen := hpass.remaining_eq
    rw [List.length_singleton] at hlen
    simp only [Rule.rank]
    omega
  | call hscan hrun =>
    have hlen := hscan.passes.remaining_eq
    have hpos := List.length_pos_iff.mpr hrun
    simp only [Rule.rank, State.remaining_note]
    omega

/-- A rule that goes on behind another one starts no rule before it has passed a character. -/
theorem Starts.rank_next (h : Starts rule s r s₁ next) (e : Expr) : (next e).rank = 0 := by
  cases h <;> rfl

/-- What a rule replies, it replies by a run. -/
theorem runs_reply (rule : Rule) (s : State) : Runs rule s (rule.reply s) := by
  -- Rules either pass a character before they start another one, or they start one of lower rank.
  induction hn : 6 * s.remaining + rule.rank using Nat.strongRecOn generalizing rule s with
  | ind n ih =>
    subst hn
    rcases stops_or_starts rule s with ⟨reply, hstop⟩ | ⟨r, s₁, next, hstart⟩
    · rw [hstop.reply_eq]
      exact .stop hstop
    · have hlt := hstart.measure_lt
      have hrun : Runs r s₁ (r.reply s₁) := ih _ hlt r s₁ rfl
      obtain ⟨w, hreach⟩ := hrun.reaches
      rw [hstart.reply_eq hreach.depth_eq]
      rcases hreply : r.reply s₁ with ⟨f | e, t⟩
      · rw [hreply] at hrun
        exact .fail hstart hrun
      · rw [hreply] at hrun hreach
        have hle : (t.atDepth s.depth).remaining ≤ s₁.remaining := hreach.remaining_le
        have hrank := hstart.rank_next e
        exact .next hstart hrun (ih _ (by omega) (next e) (t.atDepth s.depth) rfl)

/-- A run ends with what the rule replies. -/
theorem Runs.reply_eq (h : Runs rule s reply) : rule.reply s = reply := by
  induction h with
  | stop hstop => exact hstop.reply_eq
  | fail hstart hrun ih =>
    rw [hstart.reply_eq (by rw [ih, hrun.depth_eq]), ih]
    rfl
  | next hstart hrun _ ih ihnext =>
    rw [hstart.reply_eq (by rw [ih, hrun.depth_eq]), ih, ← ihnext]
    rfl

/-- The runs of a rule are exactly what it replies. -/
theorem runs_iff : Runs rule s reply ↔ rule.reply s = reply := by
  constructor
  · exact Runs.reply_eq
  · rintro rfl
    exact runs_reply rule s

theorem Runs.unique (h : Runs rule s reply) (h' : Runs rule s reply') : reply = reply' :=
  h.reply_eq.symm.trans h'.reply_eq

/-- A run of a rule that starts another one goes on with that one. -/
theorem Starts.runs_cases (hstart : Starts rule s r s₁ next) (h : Runs rule s reply) :
    (∃ f t, Runs r s₁ ⟨.error f, t⟩ ∧ reply = ⟨.error f, t.atDepth s.depth⟩) ∨
      ∃ e t, Runs r s₁ ⟨.ok e, t⟩ ∧ Runs (next e) (t.atDepth s.depth) reply := by
  rcases hreply : r.reply s₁ with ⟨f | e, t⟩
  · have hrun : Runs r s₁ ⟨.error f, t⟩ := runs_iff.mpr hreply
    exact Or.inl ⟨f, t, hrun, h.unique (.fail hstart hrun)⟩
  · have hrun : Runs r s₁ ⟨.ok e, t⟩ := runs_iff.mpr hreply
    have hnext := runs_reply (next e) (t.atDepth s.depth)
    rw [h.unique (.next hstart hrun hnext)]
    exact Or.inr ⟨e, t, hrun, hnext⟩

/-! ## The whole parse -/

/-- The parses of a text: the run of an expression, and what is made of the text behind it. -/
inductive Parses (limit : Nat) (text : List Char) : Reply Expr → Prop
  | ok {e : Expr} {s t : State} {g : List Char}
      (hrun : Runs (.chain .sum) (.start limit text) ⟨.ok e, s⟩) (hskip : s.Skips g t)
      (hend : t.cursor.rest = []) : Parses limit text ⟨.ok e, t⟩
  | fail {f : Failure} {s : State}
      (hrun : Runs (.chain .sum) (.start limit text) ⟨.error f, s⟩) :
      Parses limit text ⟨.error f, s⟩
  | trailing {e : Expr} {s t : State} {g : List Char}
      (hrun : Runs (.chain .sum) (.start limit text) ⟨.ok e, s⟩) (hskip : s.Skips g t)
      (hend : t.cursor.rest ≠ []) :
      Parses limit text
        ⟨.error ⟨.trailingInput (String.ofList t.cursor.rest), t.cursor.position⟩, t⟩

variable {limit : Nat} {text : List Char}

theorem Parses.parse_eq (h : Parses limit text reply) : parse limit text = reply := by
  cases h with
  | ok hrun hskip hend =>
    have hreply : (chain .sum (.start limit text)).reply = _ := hrun.reply_eq
    simp [parse, hreply, ← hskip.eq_skipSpaces, Cursor.atEnd, hend]
  | fail hrun =>
    have hreply : (chain .sum (.start limit text)).reply = _ := hrun.reply_eq
    simp [parse, hreply]
  | trailing hrun hskip hend =>
    have hreply : (chain .sum (.start limit text)).reply = _ := hrun.reply_eq
    simp [parse, hreply, ← hskip.eq_skipSpaces, Cursor.atEnd, hend]

theorem parses_parse (limit : Nat) (text : List Char) : Parses limit text (parse limit text) := by
  have hrun := runs_reply (.chain .sum) (.start limit text)
  rcases hreply : (Rule.chain .sum).reply (.start limit text) with ⟨f | e, s⟩
  · rw [hreply] at hrun
    have h : Parses limit text _ := .fail hrun
    rwa [h.parse_eq]
  · rw [hreply] at hrun
    obtain ⟨g, hskip⟩ := s.skips_skipSpaces
    by_cases hend : s.skipSpaces.cursor.rest = []
    · have h : Parses limit text _ := .ok hrun hskip hend
      rwa [h.parse_eq]
    · have h : Parses limit text _ := .trailing hrun hskip hend
      rwa [h.parse_eq]

/-- A parse passes some of its text. -/
theorem Parses.reaches (h : Parses limit text reply) :
    ∃ w, (State.start limit text).Reaches w reply.state := by
  cases h with
  | ok hrun hskip | trailing hrun hskip =>
    obtain ⟨w, hw⟩ := hrun.reaches
    exact ⟨_, hw.trans hskip.passes.reaches⟩
  | fail hrun => exact hrun.reaches

/-- The parses of a text are exactly what the parser replies. -/
theorem parses_iff : Parses limit text reply ↔ parse limit text = reply := by
  constructor
  · exact Parses.parse_eq
  · rintro rfl
    exact parses_parse limit text

end Parser

/-! ## Evaluations -/

variable {options : Options} {text : String} {f : Failure}

/-- An evaluation fails exactly as the parse does. -/
theorem evaluate_eq_error_iff :
    evaluate options text = .error f ↔
      ∃ t, Parser.Parses options.maxDepth text.toList ⟨.error f, t⟩ := by
  have heval : evaluate options text =
      (Parser.parse options.maxDepth text.toList).result.map Expr.value := rfl
  rcases hreply : Parser.parse options.maxDepth text.toList with ⟨result, t⟩
  simp only [heval, Parser.parses_iff, hreply]
  rcases result with f' | e
  · simp [Except.map]
  · simp [Except.map]

/-- An evaluation gives the values of the expressions that the parse finds. -/
theorem evaluate_eq_ok_iff {v : Float} :
    evaluate options text = .ok v ↔
      ∃ e t, Parser.Parses options.maxDepth text.toList ⟨.ok e, t⟩ ∧ e.value = v := by
  have heval : evaluate options text =
      (Parser.parse options.maxDepth text.toList).result.map Expr.value := rfl
  rcases hreply : Parser.parse options.maxDepth text.toList with ⟨result, t⟩
  simp only [heval, Parser.parses_iff, hreply]
  rcases result with f | e
  · simp [Except.map]
  · simp [Except.map]

/-- An evaluation succeeds exactly if the parse does. -/
theorem exists_evaluate_eq_ok_iff :
    (∃ v, evaluate options text = .ok v) ↔
      ∃ e, (Parser.parse options.maxDepth text.toList).result = .ok e := by
  have heval : evaluate options text =
      (Parser.parse options.maxDepth text.toList).result.map Expr.value := rfl
  rw [heval]
  rcases (Parser.parse options.maxDepth text.toList).result with f | e
  · simp [Except.map]
  · simp [Except.map]

end Calculator
