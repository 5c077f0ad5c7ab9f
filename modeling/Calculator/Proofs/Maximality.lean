import Calculator.Proofs.Alphabet
import Calculator.Proofs.Completeness
import Calculator.Proofs.Limits
import Calculator.Proofs.Lookahead

/-!
# Rules take all they can

A rule that succeeds stops where nothing that it could go on with comes next: a factor in front of
something else than a caret, a term in front of no operator of its level either, and an expression
in front of no operator at all. Spaces have been passed before, so what comes next is no space.

None of the rules says so on its own. A factor looks for a caret behind a primary only; behind a
sign, a caret or the name of a function it stops where another factor has stopped. In this way the
argument of a function takes every caret that follows it, and none is left to raise the function
itself to a power.

More than that, what a rule reads is the longest text of its category that comes next. A run that
stopped inside of a longer one would stop there with nothing behind the longer one, too, where all
of it is read.

## Main definitions

* `Longest`: no longer text of a category comes next than the one that has been read.

## Main results

* `Runs.isPrefix`: a rule passes every text that it could read as a whole.
* `exists_argument_of_primary`: a caret behind what may be an argument is part of the argument.
* `Enters.eat_caret`: no parse raises a function to a power.
* `rules_take_all`: where the rules of the grammar stop.
-/

namespace Calculator.Parser

open Grammar

variable {rule r : Rule} {s s₀ s₁ t : State} {next : Expr → Rule} {e x argument : Expr}
  {f : UnaryFunction} {g v w rest : List Char}

/-! ## The next character -/

/-- Where a text of a category cannot go on, none of the characters comes next with which it
could. -/
theorem State.EndsAt.not_mem {c : Category} {chars : List Char} (h : s.EndsAt c)
    (hchars : chars.all (fun x => x == ' ' || c.continues x) = true) :
    ∀ x ∈ s.peek, x ∉ chars := by
  intro x hx hmem
  have hgoes := List.all_eq_true.mp hchars x hmem
  rw [h.2 x hx, Bool.or_false, beq_iff_eq] at hgoes
  subst hgoes
  exact h.1 hx

/-- Where a factor cannot go on, no caret is passed, and no spaces either. -/
theorem State.EndsAt.eat_caret (h : s.EndsAt .factor) : s.eat '^' = (false, s) := by
  obtain ⟨hspace, hcaret⟩ := endsAt_factor_iff.mp h
  have hskip : s = s.skipSpaces := (skips_refl hspace).eq_skipSpaces
  rw [eat_eq, ← hskip, if_neg hcaret]

/-! ## Longest texts -/

/-- What has been read from `s` to `t` is a text of the category, and no longer one comes next in
`s`. -/
def Longest (c : Category) (s : State) (e : Expr) (t : State) : Prop :=
  ∃ w, s.Reaches w t ∧ Reads c w e ∧ ∀ v x, Reads c v x → v <+: s.cursor.rest → v <+: w

/-- Where nothing stands behind `v`, and enough factors may be open, a rule reads all of it. -/
def Rule.ReadsWhole (rule : Rule) (v : List Char) : Prop :=
  ∃ n, ∀ s : State, s.cursor.rest = v → s.depth + n ≤ s.limit →
    ∃ x u, Runs rule s ⟨.ok x, u⟩ ∧ u.cursor.rest = []

theorem Rule.ReadsWhole.of_reaches (x : Expr)
    (h : ∀ s d : State, s.Passes v d → s.depth + x.nest ≤ s.limit → d.cursor.rest = [] →
      ∃ u, s.Reaches v u ∧ Runs rule s ⟨.ok x, u⟩) : rule.ReadsWhole v := by
  refine ⟨x.nest, fun s hrest hdepth => ?_⟩
  obtain ⟨d, hd, hend⟩ := State.exists_passes (hrest.trans (List.append_nil v).symm)
  obtain ⟨u, hu, hrun⟩ := h s d hd hdepth hend
  exact ⟨x, u, hrun, by rw [hu.cursor.unique hd.cursor, hend]⟩

theorem readsWhole_factor (h : Reads .factor v x) : Rule.factor.ReadsWhole v := by
  obtain ⟨T, -, hspells⟩ := h
  refine .of_reaches T.expr fun s d hd hdepth hend => ?_
  exact completes_of_spells hspells s d hd hdepth (by rw [hend]; exact .nil)

theorem readsWhole_chain {level : Level} (h : Reads (.chain level) v x) :
    (Rule.chain level).ReadsWhole v := by
  obtain ⟨T, -, hspells⟩ := h
  refine .of_reaches T.expr fun s d hd hdepth hend => ?_
  exact (completes_of_spells hspells).runs_chain hd hdepth (by rw [hend]; exact .nil)

/-- A rule that succeeds has passed every text in front of it that it could read as a whole. -/
theorem Runs.isPrefix (h : Runs rule s ⟨.ok e, t⟩) (hw : s.Reaches w t) (hv : v <+: s.cursor.rest)
    (hwhole : rule.ReadsWhole v) : v <+: w := by
  have hprefix : w <+: s.cursor.rest := ⟨_, hw.cursor.rest_eq.symm⟩
  rcases List.prefix_or_prefix_of_prefix hv hprefix with hle | ⟨z, rfl⟩
  · exact hle
  rcases z with _ | ⟨next, z⟩
  · simp
  -- What the run would leave of the text, it would leave with nothing behind the text, too.
  obtain ⟨rest, hrest⟩ := hv
  have hleft : t.cursor.rest = next :: (z ++ rest) := by
    rw [hw.cursor.rest_eq, List.append_assoc] at hrest
    exact (List.append_cancel_left hrest).symm
  obtain ⟨s', htwin, hwhole'⟩ :
      ∃ s', Twin t.cursor.rest (next :: z) s s' ∧ s'.cursor.rest = w ++ next :: z :=
    ⟨_, ⟨w, hw.cursor.rest_eq, rfl⟩, rfl⟩
  obtain ⟨t', hrun, y, -, rfl⟩ := h.twin (by rw [hleft]; rfl) htwin (List.suffix_refl _)
  -- But there, all of it is read, at least if enough factors may be open.
  obtain ⟨n, hreads⟩ := hwhole
  have hlimit := hrun.withLimit (d := s'.limit + (s'.depth + n)) (Nat.le_add_right _ _)
    Reply.not_tooDeep_ok
  obtain ⟨x, u, hall, hend⟩ := hreads (s'.withLimit (s'.limit + (s'.depth + n))) hwhole'
    (Nat.le_add_left _ _)
  cases hlimit.unique hall
  simp [State.withLimit] at hend

theorem Runs.longest_factor (h : Runs .factor s ⟨.ok e, t⟩) : Longest .factor s e t := by
  obtain ⟨w, hw, hmakes⟩ := h.makes
  exact ⟨w, hw, hmakes, fun v x hv hprefix => h.isPrefix hw hprefix (readsWhole_factor hv)⟩

theorem Runs.longest_chain {level : Level} (h : Runs (.chain level) s ⟨.ok e, t⟩) :
    Longest (.chain level) s e t := by
  obtain ⟨w, hw, hmakes⟩ := h.makes
  exact ⟨w, hw, hmakes, fun v x hv hprefix => h.isPrefix hw hprefix (readsWhole_chain hv)⟩

/-! ## Carets behind arguments -/

/-- A caret behind what may be a factor is part of the factor. -/
theorem Runs.exists_exponent (h : Runs .factor s ⟨.ok e, t⟩) (hv : Reads .factor v x)
    (hrest : s.cursor.rest = v ++ '^' :: rest) :
    ∃ w, s.Reaches (v ++ '^' :: w) t ∧ Reads .factor (v ++ '^' :: w) e := by
  obtain ⟨_, hw, hreads, hlongest⟩ := h.longest_factor
  obtain ⟨w, rfl⟩ := hlongest v x hv ⟨_, hrest.symm⟩
  have hcaret : '^' :: rest = w ++ t.cursor.rest := by
    rw [hw.cursor.rest_eq, List.append_assoc] at hrest
    exact (List.append_cancel_left hrest).symm
  rcases w with _ | ⟨c, w⟩
  · -- The factor does not stop in front of the caret.
    have hends : t.EndsAt .factor := h.ends
    have hpeek : t.peek = some '^' := congrArg List.head? hcaret.symm
    exact absurd hpeek (State.endsAt_factor_iff.mp hends).2
  · obtain ⟨rfl, -⟩ := List.cons.inj hcaret
    exact ⟨w, hw, hreads⟩

/-- A name ends in front of a text that does not start with a letter. -/
theorem State.exists_scans_name {b : Builtin} (hrest : s.cursor.rest = b.name.toList ++ rest)
    (hname : ∀ c ∈ rest.head?, c.isLower = false) :
    ∃ t, s.Scans Char.isLower b.name.toList t ∧ t.cursor.rest = rest := by
  obtain ⟨t, hpass, ht⟩ := State.exists_passes hrest
  refine ⟨t, ⟨hpass, fun _ => Builtin.isLower_of_mem_name, fun c hc => hname c ?_⟩, ht⟩
  exact ht ▸ hc

/-- A caret behind what may be the argument of a function is part of the argument. -/
theorem exists_argument_of_primary (h : (primary s).reply = ⟨.ok e, t⟩) (hg : Gap g)
    (hv : Reads .factor v x) (hname : ∀ c ∈ v.head?, c.isLower = false)
    (hrest : s.cursor.rest = g ++ ((Builtin.function f).name.toList ++ (v ++ '^' :: rest))) :
    ∃ w argument, e = .call f argument ∧ Reads .factor (v ++ '^' :: w) argument ∧
      s.Reaches (g ++ ((Builtin.function f).name.toList ++ (v ++ '^' :: w))) t := by
  have hargument : ∀ c ∈ (v ++ '^' :: rest).head?, c.isLower = false := by
    rcases v with _ | ⟨d, v⟩
    · rintro c ⟨⟩
      decide
    · exact hname
  obtain ⟨u, hpass, hu⟩ := State.exists_passes hrest
  obtain ⟨m, hscan, hm⟩ := State.exists_scans_name hu hargument
  -- The spaces that are skipped are those in front of the name.
  have hne := (Builtin.function f).name_ne_nil
  obtain ⟨hskip, -⟩ :=
    Completes.skips_of_scans hg hpass hscan hne (by decide) (by rintro (_ | _) <;> decide)
  rw [reply_primary, ← hskip.eq_skipSpaces] at h
  have hrun : Runs .openPrimary u ⟨.ok e, t⟩ := runs_iff.mpr h
  have hf := Builtin.lookup?_ofList_eq_some_iff.mpr (rfl : _ = (Builtin.function f).name.toList)
  rcases (Starts.call hscan hne hf).runs_cases hrun with
    ⟨_, _, -, hreply⟩ | ⟨argument, y, hfactor, hnext⟩
  · cases hreply
  · obtain ⟨w, hw, hreads⟩ := hfactor.exists_exponent hv hm
    obtain ⟨rfl, rfl⟩ := hnext.ends
    have hreach := (hscan.passes.reaches.note _).restore.trans hw.atDepth
    exact ⟨w, argument, rfl, hreads, hpass.reaches.trans hreach⟩

/-- A power is looked for behind a primary only. -/
theorem Starts.eq_of_openPower {base : Expr} (h : Starts rule s r s₁ next)
    (hnext : next e = .openPower base) : r = .openPrimary ∧ e = base := by
  cases h <;> cases hnext
  exact ⟨rfl, rfl⟩

/-- No rule starts with looking for a power. -/
theorem Starts.ne_openPower {base : Expr} (h : Starts rule s r s₁ next) : r ≠ .openPower base := by
  intro hr
  cases h with
  | @chain level | @more level => cases level <;> cases hr
  | factor | sign | primary | power | group | call => cases hr

/-- Where a parse goes on behind a function and its argument, it passes no caret. -/
theorem Enters.eat_caret (h : Enters (.chain .sum) s₀ (.openPower (.call f argument)) s) :
    s.eat '^' = (false, s) := by
  generalize hrule : Rule.openPower (.call f argument) = rule at h
  cases h with
  | first => cases hrule
  | start _ hstart => exact absurd hrule.symm hstart.ne_openPower
  | next _ hstart hrun =>
    -- The primary has found the function, and has stopped where its argument did.
    obtain ⟨rfl, rfl⟩ := hstart.eq_of_openPower hrule.symm
    have hends : State.EndsAt .factor _ := hrun.ends ⟨f, argument, rfl⟩
    exact State.EndsAt.eat_caret hends

/-! ## All rules -/

/-- The rules of the grammar take all they can. Each of them reads the longest text of its category
that comes next. Where a factor has been read, neither a space nor a caret comes next; where a term
has been read, no operator of its level either; and where an expression has been read, no operator
at all. So behind a function with its argument no caret is left: a caret behind something that may
be the argument is read with the argument. In no text is a function raised to a power. -/
theorem rules_take_all (s : State) :
    (∀ e t, (factor s).reply = ⟨.ok e, t⟩ →
      Longest .factor s e t ∧ ∀ c ∈ t.peek, c ∉ [' ', '^']) ∧
    (∀ e t, (chain .product s).reply = ⟨.ok e, t⟩ →
      Longest .term s e t ∧ ∀ c ∈ t.peek, c ∉ [' ', '^', '*', '/']) ∧
    (∀ e t, (chain .sum s).reply = ⟨.ok e, t⟩ →
      Longest .expression s e t ∧ ∀ c ∈ t.peek, c ∉ [' ', '^', '*', '/', '+', '-']) ∧
    (∀ f argument t, (primary s).reply = ⟨.ok (.call f argument), t⟩ → t.eat '^' = (false, t)) ∧
    (∀ e t, (primary s).reply = ⟨.ok e, t⟩ → ∀ f g v x rest, Gap g → Reads .factor v x →
      (∀ c ∈ v.head?, c.isLower = false) →
      s.cursor.rest = g ++ ((Builtin.function f).name.toList ++ (v ++ '^' :: rest)) →
        ∃ w argument, e = .call f argument ∧ Reads .factor (v ++ '^' :: w) argument ∧
          s.Reaches (g ++ ((Builtin.function f).name.toList ++ (v ++ '^' :: w))) t) ∧
    ∀ (limit : Nat) (text : String) f argument,
      Enters (.chain .sum) (.start limit text.toList) (.openPower (.call f argument)) s →
        s.eat '^' = (false, s) := by
  refine ⟨fun e t h => ?factor, fun e t h => ?term, fun e t h => ?expression,
    fun f argument t h => ?call,
    fun e t h f g v x rest hg hv hname hrest => exists_argument_of_primary h hg hv hname hrest,
    fun limit text f argument h => h.eat_caret⟩
  case factor =>
    have hrun : Runs .factor s ⟨.ok e, t⟩ := runs_iff.mpr h
    have hends : t.EndsAt .factor := hrun.ends
    exact ⟨hrun.longest_factor, hends.not_mem rfl⟩
  case term =>
    have hrun : Runs (.chain .product) s ⟨.ok e, t⟩ := runs_iff.mpr h
    have hends : t.EndsAt .term := hrun.ends
    exact ⟨hrun.longest_chain, hends.not_mem rfl⟩
  case expression =>
    have hrun : Runs (.chain .sum) s ⟨.ok e, t⟩ := runs_iff.mpr h
    have hends : t.EndsAt .expression := hrun.ends
    exact ⟨hrun.longest_chain, hends.not_mem rfl⟩
  case call =>
    rw [reply_primary] at h
    have hrun : Runs .openPrimary s.skipSpaces ⟨.ok (.call f argument), t⟩ := runs_iff.mpr h
    have hends : t.EndsAt .factor := hrun.ends ⟨f, argument, rfl⟩
    exact hends.eat_caret

/-- The root of a square, divided by something: the first factor is the argument, with its caret,
and the whole of it stops in front of the operator. -/
theorem rules_take_all_root :
    ∃ (s u : State) (argument : Expr),
      (∃ e t, (factor s).reply = ⟨.ok e, t⟩ ∧ Longest .factor s e t ∧
        ∀ c ∈ t.peek, c ∉ [' ', '^']) ∧
      (∃ e t, (chain .product s).reply = ⟨.ok e, t⟩ ∧ Longest .term s e t ∧
        ∀ c ∈ t.peek, c ∉ [' ', '^', '*', '/']) ∧
      (∃ e t, (chain .sum s).reply = ⟨.ok e, t⟩ ∧ Longest .expression s e t ∧
        ∀ c ∈ t.peek, c ∉ [' ', '^', '*', '/', '+', '-']) ∧
      (∃ t, (primary s).reply = ⟨.ok (.call .sqrt argument), t⟩ ∧ t.eat '^' = (false, t) ∧
        ∃ w, Reads .factor (" 4^".toList ++ w) argument ∧
          s.Reaches ("sqrt 4^".toList ++ w) t) ∧
      Enters (.chain .sum) (.start 4 "sqrt 4^2/3".toList) (.openPower (.call .sqrt argument)) u ∧
        u.eat '^' = (false, u) := by
  let s : State := (State.start 4 "sqrt 4^2/3".toList).enter
  let square : Expr := .power (.numeral ⟨4, 0⟩) (.numeral ⟨2, 0⟩)
  let quotient : Expr := .binary .divide (.call .sqrt square) (.numeral ⟨3, 0⟩)
  have hfactor : (factor s).reply = ⟨.ok (.call .sqrt square), (factor s).reply.state⟩ :=
    congrArg (Reply.mk · _) (by decide +kernel)
  have hterm : (chain .product s).reply = ⟨.ok quotient, (chain .product s).reply.state⟩ :=
    congrArg (Reply.mk · _) (by decide +kernel)
  have hexpression : (chain .sum s).reply = ⟨.ok quotient, (chain .sum s).reply.state⟩ :=
    congrArg (Reply.mk · _) (by decide +kernel)
  have hprimary : (primary s).reply = ⟨.ok (.call .sqrt square), (primary s).reply.state⟩ :=
    congrArg (Reply.mk · _) (by decide +kernel)
  -- What stands in front of the caret could be the argument.
  have hfour : Reads .factor [' ', '4'] (.numeral ⟨4, 0⟩) :=
    (Reads.numeral (List.forall_mem_singleton.mpr rfl) (by decide)).atom.gap_append (g := [' '])
      (List.forall_mem_singleton.mpr rfl)
  -- The parse of the text enters the factor at `s`, and goes on behind its primary.
  have hopen : Enters (.chain .sum) (.start 4 "sqrt 4^2/3".toList) .openFactor s :=
    .start (.start (.start .first .chain) .chain) (.factor (by decide))
  have hskip : s.Skips [] s := State.skips_refl (by decide)
  have hrun : Runs .openPrimary s ⟨.ok (.call .sqrt square), (primary s).reply.state⟩ := by
    rw [runs_iff, Rule.reply, hskip.eq_skipSpaces, ← reply_primary, ← hskip.eq_skipSpaces]
    exact hprimary
  have hpower := hopen.next (.primary hskip (by decide)) hrun
  obtain ⟨ofFactor, ofTerm, ofExpression, ofCall, ofPrimary, -⟩ := rules_take_all s
  obtain ⟨w, argument, hcall, hreads, hw⟩ :=
    ofPrimary _ _ hprimary .sqrt [] [' ', '4'] _ ['2', '/', '3'] .nil hfour
      (fun _ hc => Option.some.inj hc ▸ rfl) rfl
  cases hcall
  exact ⟨s, _, square, ⟨_, _, hfactor, ofFactor _ _ hfactor⟩, ⟨_, _, hterm, ofTerm _ _ hterm⟩,
    ⟨_, _, hexpression, ofExpression _ _ hexpression⟩,
    ⟨_, hprimary, ofCall _ _ _ hprimary, w, hreads, hw⟩, hpower,
    (rules_take_all _).2.2.2.2.2 4 "sqrt 4^2/3" _ _ hpower⟩

end Calculator.Parser
