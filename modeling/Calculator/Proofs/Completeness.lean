import Calculator.Proofs.Soundness

/-!
# Every spelling is read

A run started in front of a spelling passes all of it and finds its tree, if the tree is not nested
too deeply and the text behind it does not go on with it (`Delimits`). For a chain this is said of
what comes behind it: a chain leans to the left and is read from the left, so what holds of a whole
chain is that reading it comes down to going on behind it.

## Main results

* `completes_of_spells`: a spelling is read as its tree, within any text.
* `parse_eq_ok_iff`: a text is accepted exactly if it spells a tree that is not nested too deeply,
  and then its value is that of the tree.
-/

namespace Calculator.Parser

open Grammar

/-- Two characters that belong to one token if they stand next to each other. -/
def joins (last next : Char) : Bool :=
  (last.isLower && next.isLower) || (isNumeralChar last && isNumeralChar next)

/-- The text `rest` does not go on with the text `w` of a category. -/
def Delimits (c : Category) (w rest : List Char) : Prop :=
  ∀ next ∈ rest.head?, next ≠ ' ' ∧ c.continues next = false ∧
    ∀ last ∈ w.getLast?, joins last next = false

section Delimits

variable {c c' : Category} {v w rest : List Char} {next : Char}

theorem Delimits.nil : Delimits c w [] := by
  intro next hnext
  cases hnext

/-- Symbols delimit every category that does not go on with them. -/
theorem Delimits.cons (hspace : next ≠ ' ') (hlower : next.isLower = false)
    (hnumeral : isNumeralChar next = false) (hc : c.continues next = false) :
    Delimits c w (next :: rest) := by
  intro x hx
  obtain rfl : next = x := by simpa using hx
  refine ⟨hspace, hc, fun last _ => ?_⟩
  simp [joins, hlower, hnumeral]

theorem Delimits.endsAt {s : State} (h : Delimits c w s.cursor.rest) : s.EndsAt c := by
  refine ⟨fun hpeek => ?_, fun next hnext => (h next hnext).2.1⟩
  exact (h ' ' hpeek).1 rfl

theorem Delimits.of_append (h : Delimits c (v ++ w) rest) : Delimits c w rest := by
  intro next hnext
  obtain ⟨hspace, hc, hjoins⟩ := h next hnext
  refine ⟨hspace, hc, fun last hlast => hjoins last ?_⟩
  have hlast : w.getLast? = some last := hlast
  rw [List.getLast?_append, hlast]
  rfl

theorem Delimits.mono (h : Delimits c w rest)
    (hc : ∀ next, c.continues next = false → c'.continues next = false) : Delimits c' w rest := by
  intro next hnext
  obtain ⟨hspace, hcontinues, hjoins⟩ := h next hnext
  exact ⟨hspace, hc next hcontinues, hjoins⟩

/-- What delimits a chain delimits its last operand. -/
theorem Delimits.operand {level : Level} (h : Delimits (.chain level) w rest) :
    Delimits (.operand level) w rest := by
  refine h.mono fun next hnext => ?_
  rw [Category.continues_chain, Bool.or_eq_false_iff] at hnext
  exact hnext.1

theorem Delimits.atom (h : Delimits .factor w rest) : Delimits .atom w rest :=
  h.mono fun _ _ => rfl

/-- The symbol of an operator delimits its left operand. -/
theorem delimits_symbol (op : Operator) (w rest : List Char) :
    Delimits (.operand op.level) w (op.symbol :: rest) := by
  cases op <;> exact .cons (by decide) (by decide) (by decide) (by decide)

end Delimits

variable {s t u d : State} {e : Expr} {g g' v w run : List Char}

/-- A state in front of a text can pass it. -/
theorem State.exists_passes {rest : List Char} (h : s.cursor.rest = w ++ rest) :
    ∃ t, s.Passes w t ∧ t.cursor.rest = rest :=
  ⟨{ s with cursor := ⟨w.reverse ++ s.cursor.passed, rest⟩ }, ⟨⟨h, rfl⟩, rfl⟩, rfl⟩

/-- What comes next is left to be passed once a part of it has been passed. -/
theorem State.Reaches.split (h : s.Reaches v t) (hd : s.Passes (v ++ w) d) :
    ∃ d', t.Passes w d' ∧ d'.cursor.rest = d.cursor.rest := by
  obtain ⟨m, hm, hmd⟩ := hd.split
  refine State.exists_passes ?_
  rw [h.cursor.unique hm.cursor, hmd.cursor.rest_eq]

/-- A run of a class of characters is the longest one in front of a text that delimits it. -/
theorem State.Passes.scans {accept : Char → Bool} {c : Category} (hrun : s.Passes run t)
    (hall : ∀ c ∈ run, accept c = true) (hne : run ≠ []) (hgap : Gap g') (hd : t.Passes g' d)
    (hdelim : Delimits c (run ++ g') d.cursor.rest) (hspace : accept ' ' = false)
    (hjoins : ∀ a b, accept a = true → accept b = true → joins a b = true) :
    s.Scans accept run t := by
  refine ⟨hrun, hall, fun next hnext => ?_⟩
  -- Either the delimiting text comes next, or a space that belongs to the text passed.
  rcases g' with _ | ⟨space, g'⟩
  · rcases hnextclass : accept next with _ | _
    · rfl
    · have hlast : run.getLast hne ∈ (run ++ []).getLast? := by
        rw [List.append_nil]
        exact List.getLast?_eq_some_getLast hne
      have hpeek : next ∈ d.cursor.rest.head? := by rwa [hd.unique (.refl t)]
      have hfalse := (hdelim next hpeek).2.2 _ hlast
      rw [hjoins _ _ (hall _ (List.getLast_mem hne)) hnextclass] at hfalse
      cases hfalse
  · obtain rfl : space = next := Option.some.inj (hd.peek_eq.symm.trans hnext)
    rwa [hgap space List.mem_cons_self]

/-! ## Spellings in front of other text -/

/-- Wherever the text `w` of a category comes next and is delimited, it is read as `e`. -/
def Completes : Category → Expr → List Char → Prop
  -- Reading the chain comes down to going on behind it, as far as it has been read.
  | .chain level, e, w =>
    ∀ s d : State, s.Passes w d → s.depth + e.nest ≤ s.limit →
      Delimits (.operand level) w d.cursor.rest →
      ∃ t, s.Reaches w t ∧
        ∀ reply, Runs (.more level e) t reply → Runs (.chain level) s reply
  | .factor, e, w =>
    ∀ s d : State, s.Passes w d → s.depth + e.nest ≤ s.limit → Delimits .factor w d.cursor.rest →
      ∃ t, s.Reaches w t ∧ Runs .factor s ⟨.ok e, t⟩
  -- A primary starts behind the spaces in front, and leaves those behind it to the power.
  | .atom, e, w =>
    ∀ s d : State, s.Passes w d → s.depth + e.nest ≤ s.limit + 1 → Delimits .atom w d.cursor.rest →
      ∃ g t v u g', s.Skips g t ∧ t.next? Sign.ofChar? = none ∧
        Runs .openPrimary t ⟨.ok e, u⟩ ∧ s.Reaches v u ∧ Gap g' ∧ w = v ++ g'

theorem runs_factor (hdepth : s.depth < s.limit) (h : Runs .openFactor s.enter ⟨.ok e, t⟩) :
    Runs .factor s ⟨.ok e, t.atDepth s.depth⟩ :=
  .next (.factor hdepth) h (.stop .done)

theorem State.Passes.enter (h : s.Passes w t) : s.enter.Passes w t.enter := by
  refine ⟨h.cursor, ?_⟩
  rw [State.enter, State.enter, h.eq]

theorem State.Reaches.leave (h : s.enter.Reaches w t) : s.Reaches w (t.atDepth s.depth) :=
  h.atDepth

/-- Where a chain has ended, nothing more is read of it. -/
theorem runs_more_of_endsAt {level : Level} (h : s.EndsAt (.chain level)) :
    Runs (.more level e) s ⟨.ok e, s⟩ := by
  refine .stop (.more (State.skips_refl h.1) ?_)
  rcases hpeek : s.peek with _ | next
  · rw [State.next?, hpeek, Option.bind_none]
  · have hcontinues := h.2 next hpeek
    rw [Category.continues_chain, Bool.or_eq_false_iff] at hcontinues
    rw [State.next?, hpeek, Option.bind_some]
    simpa using hcontinues.2

namespace Completes

/-- A chain in front of a text that delimits it is read to its end. -/
theorem runs_chain {level : Level} (h : Completes (.chain level) e w) (hd : s.Passes w d)
    (hdepth : s.depth + e.nest ≤ s.limit) (hdelim : Delimits (.chain level) w d.cursor.rest) :
    ∃ t, s.Reaches w t ∧ Runs (.chain level) s ⟨.ok e, t⟩ := by
  obtain ⟨t, ht, hruns⟩ := h s d hd hdepth hdelim.operand
  refine ⟨t, ht, hruns _ (runs_more_of_endsAt (Delimits.endsAt (w := w) ?_))⟩
  rwa [ht.cursor.unique hd.cursor]

theorem runs_operand {level : Level} (h : Completes (.operand level) e w) (hd : s.Passes w d)
    (hdepth : s.depth + e.nest ≤ s.limit) (hdelim : Delimits (.operand level) w d.cursor.rest) :
    ∃ t, s.Reaches w t ∧ Runs (.operand level) s ⟨.ok e, t⟩ := by
  cases level with
  | sum =>
    have hterm : Completes .term e w := h
    exact hterm.runs_chain hd hdepth hdelim
  | product => exact h s d hd hdepth hdelim

theorem single {level : Level} (h : Completes (.operand level) e w) :
    Completes (.chain level) e w := by
  intro s d hd hdepth hdelim
  -- The run of the operand, and then whatever run goes on behind it.
  obtain ⟨t, ht, hrun⟩ := h.runs_operand hd hdepth hdelim
  refine ⟨_, ht.restore, fun reply hmore => .next .chain hrun hmore⟩

theorem binary {x : Expr} (op : Operator) (hv : Completes (.chain op.level) e v)
    (hw : Completes (.operand op.level) x w) :
    Completes (.chain op.level) (.binary op e x) (v ++ op.symbol :: w) := by
  intro s d hd hdepth hdelim
  have hdepth : s.depth + max e.nest x.nest ≤ s.limit := hdepth
  obtain ⟨m, hm, hmd⟩ := hd.split
  have hmrest : m.cursor.rest = op.symbol :: (w ++ d.cursor.rest) := hmd.cursor.rest_eq
  obtain ⟨t, ht, hruns⟩ := hv s m hm (by omega) (by
    rw [hmrest]
    exact delimits_symbol op v _)
  -- Behind the left operand: the symbol, and then the right operand.
  obtain ⟨d', hd', hrest⟩ := ht.split hd
  obtain ⟨u, hu, hud⟩ := State.Passes.split (v := [op.symbol]) hd'
  have hud_depth : u.depth + x.nest ≤ u.limit := by
    rw [hu.depth_eq, hu.limit_eq, ht.depth_eq, ht.limit_eq]
    omega
  obtain ⟨y, hy, hright⟩ := hw.runs_operand hud hud_depth (by
    rw [hrest]
    exact Delimits.of_append (v := v ++ [op.symbol]) (by simpa using hdelim))
  refine ⟨y.atDepth t.depth, ?_, fun reply hmore => hruns _ ?_⟩
  · have h := (ht.trans hu.reaches).trans hy
    simpa [ht.depth_eq] using h.restore
  · exact .next (.more (g := []) .nil hu (Level.operator?_eq_some_iff.mpr ⟨rfl, rfl⟩)) hright hmore

theorem signed (sign : Sign) (hg : Gap g) (h : Completes .factor e w) :
    Completes .factor (.signed sign e) (g ++ sign.symbol :: w) := by
  intro s d hd hdepth hdelim
  have hdepth : s.depth + (1 + e.nest) ≤ s.limit := hdepth
  -- The sign with the spaces in front of it, and then its operand.
  have hcons : g ++ sign.symbol :: w = (g ++ [sign.symbol]) ++ w := by simp
  rw [hcons] at hd hdelim ⊢
  obtain ⟨t, ht, htd⟩ := hd.enter.split
  have htdepth : t.depth + e.nest ≤ t.limit := by
    rw [ht.depth_eq, ht.limit_eq, State.depth_enter, State.limit_enter]
    omega
  obtain ⟨u, hu, hrun⟩ := h t d.enter htd htdepth hdelim.of_append
  refine ⟨u.atDepth s.depth, (ht.reaches.trans hu).leave, ?_⟩
  refine runs_factor (t := u.atDepth s.enter.depth) (by omega) ?_
  exact .next (.sign hg ht (Sign.ofChar?_eq_some_iff.mpr rfl)) hrun (.stop .done)

/-- An atom is read as a factor where no power follows. -/
theorem atom (h : Completes .atom e w) : Completes .factor e w := by
  intro s d hd hdepth hdelim
  have hpos := e.nest_pos
  have hopen : s.enter.depth + e.nest ≤ s.enter.limit + 1 := by
    rw [State.depth_enter, State.limit_enter]
    omega
  obtain ⟨g, t, v, u, g', hskip, hsign, hrun, hu, hg', rfl⟩ :=
    h s.enter d.enter hd.enter hopen hdelim.atom
  -- Trying for a power skips the spaces behind the atom and finds no caret.
  obtain ⟨y, hy, hrest⟩ := hu.restore.split hd.enter
  have hends : y.EndsAt .factor := Delimits.endsAt (w := v ++ g') (by rwa [hrest])
  obtain ⟨hspace, hcaret⟩ := State.endsAt_factor_iff.mp hends
  refine ⟨y.atDepth s.depth, (hu.restore.trans hy.reaches).leave, ?_⟩
  refine runs_factor (by omega) (.next (.primary hskip hsign) hrun ?_)
  exact .stop (.power ⟨hy, hg', hspace⟩ hcaret)

theorem power {x : Expr} (hv : Completes .atom e v) (hw : Completes .factor x w) :
    Completes .factor (.power e x) (v ++ '^' :: w) := by
  intro s d hd hdepth hdelim
  have hdepth : s.depth + max e.nest (1 + x.nest) ≤ s.limit := hdepth
  have hpos := e.nest_pos
  obtain ⟨m, hm, hmd⟩ := hd.enter.split
  have hopen : s.enter.depth + e.nest ≤ s.enter.limit + 1 := by
    rw [State.depth_enter, State.limit_enter]
    omega
  have hcaret : Delimits .atom v m.cursor.rest := by
    rw [hmd.cursor.rest_eq]
    exact .cons (by decide) (by decide) (by decide) rfl
  obtain ⟨g, t, v, u, g', hskip, hsign, hrun, hu, hg', rfl⟩ := hv s.enter m hm hopen hcaret
  -- Behind the base: the caret with the spaces in front of it, and then the exponent.
  have hassoc : v ++ g' ++ '^' :: w = v ++ ((g' ++ ['^']) ++ w) := by simp
  rw [hassoc] at hd hdelim ⊢
  obtain ⟨d', hd', hrest⟩ := hu.restore.split hd.enter
  obtain ⟨y, hy, hyd⟩ := hd'.split
  have hydepth : y.depth + x.nest ≤ y.limit := by
    rw [hy.depth_eq, hy.limit_eq, hu.restore.depth_eq, hu.restore.limit_eq, State.depth_enter,
      State.limit_enter]
    omega
  have hydelim : Delimits .factor w d'.cursor.rest := by
    rw [hrest]
    exact hdelim.of_append.of_append
  obtain ⟨z, hz, hexponent⟩ := hw y d' hyd hydepth hydelim
  refine ⟨z.atDepth s.depth, (hu.restore.trans (hy.reaches.trans hz)).leave, ?_⟩
  refine runs_factor (t := z.atDepth s.enter.depth) (by omega)
    (.next (.primary hskip hsign) hrun ?_)
  exact .next (.power hg' hy) hexponent (.stop .done)

/-- In front of a number, of a name or of a parenthesis, spaces are skipped and no sign is read. -/
theorem skips_of_peek {next : Char} (hg : Gap g) (ht : s.Passes g t) (hpeek : t.peek = some next)
    (hspace : next ≠ ' ') (hsign : Sign.ofChar? next = none) :
    s.Skips g t ∧ t.next? Sign.ofChar? = none := by
  refine ⟨⟨ht, hg, ?_⟩, ?_⟩
  · rw [hpeek]
    simpa using hspace
  · rw [State.next?, hpeek, Option.bind_some, hsign]

theorem skips_of_scans {accept : Char → Bool} (hg : Gap g) (ht : s.Passes g t)
    (hscan : t.Scans accept run u) (hrun : run ≠ []) (hspace : accept ' ' = false)
    (hsign : ∀ sign : Sign, accept sign.symbol = false) :
    s.Skips g t ∧ t.next? Sign.ofChar? = none := by
  obtain ⟨next, hpeek, hnext⟩ := hscan.peek_of_ne_nil hrun
  refine skips_of_peek hg ht hpeek ?_ ?_
  · rintro rfl
    rw [hspace] at hnext
    cases hnext
  · rcases hread : Sign.ofChar? next with _ | sign
    · rfl
    · rw [← Sign.ofChar?_eq_some_iff.mp hread, hsign] at hnext
      cases hnext

theorem number (n : Number) (hg : Gap g) (hg' : Gap g') :
    Completes .atom (.numeral n.toNumeral) (g ++ n.run ++ g') := by
  intro s d hd hdepth hdelim
  have hrun : n.run ≠ [] := by
    obtain ⟨c, hc, -⟩ := n.digit
    exact List.ne_nil_of_mem hc
  rw [List.append_assoc] at hd hdelim
  obtain ⟨t, ht, htd⟩ := hd.split
  obtain ⟨u, hu, hud⟩ := htd.split
  have hscan : t.Scans isNumeralChar n.run u :=
    hu.scans n.chars hrun hg' hud hdelim.of_append (by decide) fun a b ha hb => by
      simp [joins, ha, hb]
  obtain ⟨hskip, hsign⟩ :=
    skips_of_scans hg ht hscan hrun (by decide) (by rintro (_ | _) <;> decide)
  exact ⟨g, t, g ++ n.run, u, g', hskip, hsign, .stop (.numeral hscan hrun (ofRun?_run n)),
    (ht.trans hu).reaches, hg', rfl⟩

theorem constant (c : Constant) (hg : Gap g) (hg' : Gap g') :
    Completes .atom (.constant c) (g ++ (Builtin.constant c).name.toList ++ g') := by
  intro s d hd hdepth hdelim
  have hrun := (Builtin.constant c).name_ne_nil
  have hlower : ∀ x ∈ (Builtin.constant c).name.toList, x.isLower = true :=
    fun _ => Builtin.isLower_of_mem_name
  rw [List.append_assoc] at hd hdelim
  obtain ⟨t, ht, htd⟩ := hd.split
  obtain ⟨u, hu, hud⟩ := htd.split
  have hscan : t.Scans Char.isLower _ u :=
    hu.scans hlower hrun hg' hud hdelim.of_append (by decide) fun a b ha hb => by
      simp [joins, ha, hb]
  obtain ⟨hskip, hsign⟩ :=
    skips_of_scans hg ht hscan hrun (by decide) (by rintro (_ | _) <;> decide)
  refine ⟨g, t, _, _, g', hskip, hsign, .stop (.constant hscan hrun ?_),
    (ht.trans hu).reaches.note _, hg', rfl⟩
  exact Builtin.lookup?_ofList_eq_some_iff.mpr rfl

/-- A parenthesis is followed by the content of the group and the parenthesis that closes it. -/
theorem runs_group (h : Completes .expression e w) (hd : s.Passes ('(' :: (w ++ [')'])) d)
    (hdepth : s.depth + e.nest ≤ s.limit) :
    ∃ t, s.Reaches ('(' :: (w ++ [')'])) t ∧ Runs .openPrimary s ⟨.ok (.group e), t⟩ := by
  -- The places behind the parenthesis and behind the content.
  obtain ⟨p, hp, hpd⟩ := State.Passes.split (v := ['(']) hd
  obtain ⟨m, hm, hmd⟩ := hpd.split
  have hpdepth : p.depth + e.nest ≤ p.limit := by rwa [hp.depth_eq, hp.limit_eq]
  have hparen : Delimits .expression w m.cursor.rest := by
    rw [hmd.cursor.rest_eq]
    exact .cons (by decide) (by decide) (by decide) (by decide)
  obtain ⟨y, hy, hinner⟩ := h.runs_chain hm hpdepth hparen
  have hy : p.Reaches w (y.atDepth s.depth) := by
    rw [← hp.depth_eq]
    exact hy.restore
  obtain ⟨z, hz, -⟩ := hy.split hpd
  exact ⟨z, hp.reaches.trans (hy.trans hz.reaches),
    .next (.group hp) hinner (.stop (.close (g := []) .nil hz))⟩

theorem group (hg : Gap g) (hg' : Gap g') (h : Completes .expression e w) :
    Completes .atom (.group e) (g ++ '(' :: (w ++ ')' :: g')) := by
  intro s d hd hdepth hdelim
  have hdepth : s.depth + (1 + e.nest) ≤ s.limit + 1 := hdepth
  have hassoc : '(' :: (w ++ ')' :: g') = '(' :: (w ++ [')']) ++ g' := by simp
  rw [hassoc] at hd ⊢
  obtain ⟨t, ht, htd⟩ := hd.split
  obtain ⟨m, hm, hmd⟩ := htd.split
  have htdepth : t.depth + e.nest ≤ t.limit := by
    rw [ht.depth_eq, ht.limit_eq]
    omega
  obtain ⟨z, hz, hrun⟩ := h.runs_group hm htdepth
  obtain ⟨hskip, hsign⟩ := skips_of_peek hg ht hm.peek_eq (by decide) (by decide)
  exact ⟨g, t, g ++ '(' :: (w ++ [')']), z, g', hskip, hsign, hrun, ht.reaches.trans hz, hg',
    (List.append_assoc _ _ _).symm⟩

theorem call (f : UnaryFunction) (hg : Gap g) (h : Completes .factor e w) (hw : w ≠ [])
    (hname : ∀ c ∈ w.head?, c.isLower = false) :
    Completes .factor (.call f e) (g ++ (Builtin.function f).name.toList ++ w) := by
  intro s d hd hdepth hdelim
  have hdepth : s.depth + (1 + e.nest) ≤ s.limit := hdepth
  have hrun := (Builtin.function f).name_ne_nil
  have hlower : ∀ x ∈ (Builtin.function f).name.toList, x.isLower = true :=
    fun _ => Builtin.isLower_of_mem_name
  obtain ⟨m, hm, hmd⟩ := hd.enter.split
  obtain ⟨t, ht, htm⟩ := hm.split
  -- The argument does not start with a letter, so the name ends in front of it.
  have hscan : t.Scans Char.isLower (Builtin.function f).name.toList m := by
    refine ⟨htm, hlower, fun c hc => hname c ?_⟩
    rcases w with _ | ⟨x, w⟩
    · exact absurd rfl hw
    · exact hmd.peek_eq.symm.trans hc
  obtain ⟨hskip, hsign⟩ :=
    skips_of_scans hg ht hscan hrun (by decide) (by rintro (_ | _) <;> decide)
  have hf := Builtin.lookup?_ofList_eq_some_iff.mpr (rfl : _ = (Builtin.function f).name.toList)
  have hstart := Starts.call hscan hrun hf
  have hreach :=
    (ht.trans htm).reaches.note ⟨String.ofList (Builtin.function f).name.toList, true⟩
  obtain ⟨d', hd', hrest⟩ := hreach.split hd.enter
  have hargdepth : m.depth + e.nest ≤ m.limit := by
    rw [hm.depth_eq, hm.limit_eq, State.depth_enter, State.limit_enter]
    omega
  have hargdelim : Delimits .factor w d'.cursor.rest := by
    rw [hrest]
    exact hdelim.of_append
  obtain ⟨y, hy, hargument⟩ := h _ d' hd' hargdepth hargdelim
  obtain ⟨hspace, hcaret⟩ := State.endsAt_factor_iff.mp hargument.ends
  refine ⟨y.atDepth s.depth, (hreach.trans hy).leave, ?_⟩
  have hprimary := Runs.next hstart hargument (.stop .done)
  -- No power is left to be read behind the argument.
  have hpower : Runs (.openPower (.call f e)) (y.atDepth s.enter.depth)
      ⟨.ok (.call f e), y.atDepth s.enter.depth⟩ := .stop (.power (State.skips_refl hspace) hcaret)
  exact runs_factor (t := y.atDepth s.enter.depth) (by omega)
    (.next (.primary hskip hsign) hprimary hpower)

end Completes

/-- Every spelling is read as its tree. -/
theorem completes_of_spells {c : Category} {T : Tree c} (h : T.Spells w) :
    Completes c T.expr w := by
  -- One production of the grammar for each way to spell a tree.
  induction h with
  | number hg hg' => exact .number _ hg hg'
  | @constant c _ _ hg hg' =>
    rw [c.word_eq]
    exact .constant c hg hg'
  | group hg _ hg' ih => exact .group hg hg' ih
  | atom _ ih => exact .atom ih
  | power _ _ ihv ihw => exact .power ihv ihw
  | signed hg _ ih => exact .signed _ hg ih
  | @call f _ _ _ hg hw hname ih =>
    rw [f.word_eq]
    exact .call f hg ih hw.ne_nil hname
  | single _ ih => exact .single ih
  | @binary _ op hlevel left right _ _ _ _ ihv ihw =>
    subst hlevel
    exact .binary op ihv ihw

/-! ## Whole texts -/

/-- A text that spells a tree is parsed as that tree. -/
theorem parse_of_spells {limit : Nat} {text : List Char} {T : Tree .expression}
    (h : T.Spells text) (hnest : T.nest ≤ limit) :
    (parse limit text).result = .ok T.expr := by
  have hrest : (State.start limit text).cursor.rest = text ++ [] := by
    simp [State.start, Cursor.ofText]
  obtain ⟨d, hd, hdrest⟩ := State.exists_passes hrest
  have hdepth : (State.start limit text).depth + T.expr.nest ≤ limit := by
    rw [T.nest_expr]
    simpa [State.start] using hnest
  obtain ⟨t, ht, hrun⟩ := (completes_of_spells h).runs_chain hd hdepth (by rw [hdrest]; exact .nil)
  have hend : t.cursor.rest = [] := by rw [ht.cursor.unique hd.cursor, hdrest]
  have hskip : t.Skips [] t := State.skips_refl (by simp [State.peek, Cursor.peek, hend])
  rw [(Parses.ok hrun hskip hend).parse_eq]

/-- What a text is parsed as, it spells. -/
theorem reads_of_parse {limit : Nat} {text : List Char} {e : Expr}
    (h : (parse limit text).result = .ok e) :
    Reads .expression text e ∧ e.nest ≤ limit := by
  have hparses := parses_parse limit text
  rcases hreply : parse limit text with ⟨result, t⟩
  rw [hreply] at h hparses
  obtain rfl : result = .ok e := h
  cases hparses with
  | ok hrun hskip hend =>
    -- What the run has passed spells its tree, and so do the spaces behind it.
    obtain ⟨w, hw, hmakes⟩ := hrun.makes
    have hfits := hrun.fits (Nat.zero_le _)
    have hrest := hw.cursor.rest_eq
    rw [hskip.passes.cursor.rest_eq, hend, List.append_nil] at hrest
    have hreads : Reads .expression _ e := hmakes.append_gap hskip.gap
    rw [← hrest] at hreads
    exact ⟨hreads, by simpa [Rule.Fits, State.start] using hfits⟩

/-- A text with a value completes an expression of that value, not nested too deeply. -/
theorem exists_completes_of_evaluate {limit : Nat} {text : String} {v : Float}
    (h : evaluate ⟨limit⟩ text = .ok v) :
    ∃ e, Completes .expression e text.toList ∧ e.nest ≤ limit ∧ e.value = v := by
  obtain ⟨e, t, hparse, hvalue⟩ := evaluate_eq_ok_iff.mp h
  obtain ⟨⟨T, rfl, hspells⟩, hnest⟩ := reads_of_parse (congrArg Reply.result hparse.parse_eq)
  exact ⟨T.expr, completes_of_spells hspells, hnest, hvalue⟩

end Calculator.Parser
