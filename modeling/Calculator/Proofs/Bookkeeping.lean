import Calculator.Proofs.Alphabet
import Calculator.Proofs.Nesting
import Calculator.Proofs.Offsets
import Mathlib.Data.List.Chain

/-!
# The books of a parse

A parse keeps books: how many factors are open, how many may be, and where in which text the cursor
stands. A rule may end early, with a failure from deep inside of it; wherever it ends, the books are
those with which it was entered, but for the cursor, which has gone on. In between, no more factors
are open than may be, so the number of open factors can be counted in words of 64 bits.

That every rule comes to an end does not rest on this number. A rule that leads to another one has
passed a character, or comes earlier in a fixed order of the rules, so from any place there are only
so many rules that lead to each other, however many factors may be open.

## Main definitions

* `Leads`: a rule starts another one, or goes on with it.
* `State.InOrder`: the books of a state agree with the text and the limit.
* `Keeps`: what a rule keeps of the state in which it was started.
* `Books`: all that holds where a parse enters a rule.

## Main results

* `length_le_of_isChain`: rules do not lead to each other forever.
* `Enters.inOrder`: the books are in order wherever a rule is entered.
* `keeps_chain`, `keeps_factor`, `keeps_primary`: the rules of the grammar keep the books.
* `rules_keep_books`: all of this for the parse of a text.
-/

namespace Calculator.Parser

open Grammar

/-! ## Rules that lead to others -/

/-- A rule in one state leads to a rule in another state: it starts that rule, or goes on with it
behind one that it has started. -/
inductive Leads : Rule × State → Rule × State → Prop
  | starts {rule r : Rule} {s s₁ : State} {next : Expr → Rule} (hstart : Starts rule s r s₁ next) :
      Leads (rule, s) (r, s₁)
  | goesOn {rule r : Rule} {s s₁ t : State} {next : Expr → Rule} {e : Expr}
      (hstart : Starts rule s r s₁ next) (hrun : Runs r s₁ ⟨.ok e, t⟩) :
      Leads (rule, s) (next e, t.atDepth s.depth)

variable {rule rule₀ r : Rule} {s s₀ s₁ t u : State} {next : Expr → Rule} {reply : Reply Expr}
  {g w : List Char} {limit : Nat} {text : String}

namespace Leads

/-- On the way to the rule that it leads to, a rule has passed some text. -/
theorem reaches (h : Leads (rule, s) (r, u)) : ∃ w, s.Reaches w (u.atDepth s.depth) := by
  cases h with
  | starts hstart => exact hstart.reaches
  | goesOn hstart hrun =>
    obtain ⟨v, hv⟩ := hstart.reaches
    obtain ⟨w, hw⟩ := hrun.reaches
    exact ⟨v ++ w, hv.trans hw.atDepth⟩

/-- Rules lead on in the text, and never back. -/
theorem position_le (h : Leads (rule, s) (r, u)) : s.cursor.position ≤ u.cursor.position := by
  obtain ⟨w, hw⟩ := h.reaches
  exact hw.position_le

/-- Only a factor that may be opened adds to the number of open factors. -/
theorem depth_le (h : Leads (rule, s) (r, u)) (hdepth : s.depth ≤ s.limit) : u.depth ≤ s.limit := by
  cases h with
  | starts hstart =>
    rw [← hstart.limit_eq]
    exact hstart.depth_le hdepth
  | goesOn => exact hdepth

/-- Each factor that is opened is paid for by a character passed in front of the next one. -/
theorem debt_le (h : Leads (rule, s) (r, u)) :
    ∃ w, s.Reaches w (u.atDepth s.depth) ∧
      u.depth + rule.debt ≤ s.depth + r.debt + solidCount w := by
  cases h with
  | starts hstart => exact hstart.debt_le
  -- The factors opened in between have been closed again.
  | goesOn hstart hrun =>
    obtain ⟨w, hw⟩ := (goesOn hstart hrun).reaches
    exact ⟨w, hw, Nat.le_add_right_of_le (Nat.add_le_add_left (hstart.debt_next _) _)⟩

/-- Rules lead only to rules that come earlier in the order in which rules end. -/
theorem measure_lt (h : Leads (rule, s) (r, u)) :
    6 * u.remaining + r.rank < 6 * s.remaining + rule.rank := by
  cases h with
  | starts hstart => exact hstart.measure_lt
  | @goesOn _ _ _ s₁ t _ e hstart hrun =>
    obtain ⟨w, hw⟩ := hrun.reaches
    have hle : (t.atDepth s.depth).remaining ≤ s₁.remaining := hw.remaining_le
    have hlt := hstart.measure_lt
    have hrank := hstart.rank_next e
    omega

end Leads

theorem Rule.rank_le (rule : Rule) : rule.rank ≤ 5 := by
  cases rule with
  | chain level => cases level <;> simp [rank]
  | _ => simp [rank]

/-- Rules do not lead to each other forever. How far they do depends on what is left of the text,
and not on the number of factors that may be open. -/
theorem length_le_of_isChain {links : List (Rule × State)}
    (h : List.IsChain Leads ((rule, s) :: links)) :
    links.length ≤ 6 * s.remaining + rule.rank := by
  induction links generalizing rule s with
  | nil => exact Nat.zero_le _
  | cons link links ih =>
    obtain ⟨hleads, hrest⟩ := List.isChain_cons_cons.mp h
    -- Each link comes earlier than the one before, in an order that does not know the limit.
    have hlt := hleads.measure_lt
    have hle := ih hrest
    rw [List.length_cons]
    omega

/-- What is kept wherever a rule leads to another one holds wherever a rule is entered. -/
theorem Enters.of_invariant {P : Rule → State → Prop}
    (hkeep : ∀ {rule s r u}, Leads (rule, s) (r, u) → P rule s → P r u)
    (h : Enters rule₀ s₀ rule s) (hfirst : P rule₀ s₀) : P rule s := by
  induction h with
  | first => exact hfirst
  | start _ hstart ih => exact hkeep (.starts hstart) ih
  | next _ hstart hrun ih => exact hkeep (.goesOn hstart hrun) ih

/-! ## The state in which a rule is entered -/

/-- The books of a state agree with the text and with the number of factors that may be open. -/
structure State.InOrder (limit : Nat) (text : String) (s : State) : Prop where
  /-- The cursor stands in the text. -/
  source_eq : s.cursor.source = text.toList
  /-- It stands between two characters, and not behind the end. -/
  standsIn : s.cursor.StandsIn text
  /-- As many factors may be open as from the start. -/
  limit_eq : s.limit = limit
  /-- No more are. -/
  depth_le : s.depth ≤ limit

namespace State.InOrder

theorem of_source (hsource : s.cursor.source = text.toList) (hlimit : s.limit = limit)
    (hdepth : s.depth ≤ limit) : s.InOrder limit text :=
  ⟨hsource, Cursor.standsIn_of_source hsource, hlimit, hdepth⟩

theorem start (limit : Nat) (text : String) : (State.start limit text.toList).InOrder limit text :=
  .of_source (Cursor.source_ofText _) rfl (Nat.zero_le _)

/-- The books stay in order while text is passed. -/
theorem reaches (h : s.InOrder limit text) (hreach : s.Reaches w t) : t.InOrder limit text :=
  .of_source (hreach.cursor.source_eq.trans h.source_eq) (hreach.limit_eq.trans h.limit_eq)
    (hreach.depth_eq.trans_le h.depth_le)

/-- The books are in order in a rule to which another one leads. -/
theorem leads (h : s.InOrder limit text) (hleads : Leads (rule, s) (r, u)) :
    u.InOrder limit text := by
  obtain ⟨w, hw⟩ := hleads.reaches
  -- All but the depth is as if only text had been passed.
  have hu := h.reaches hw
  have hdepth := hleads.depth_le (h.depth_le.trans_eq h.limit_eq.symm)
  exact .of_source hu.source_eq hu.limit_eq (hdepth.trans_eq h.limit_eq)

end State.InOrder

/-- The books are in order wherever a rule is entered. -/
theorem Enters.inOrder (h : Enters rule₀ s₀ rule s) (hs₀ : s₀.InOrder limit text) :
    s.InOrder limit text :=
  h.of_invariant (P := fun _ s => s.InOrder limit text) (fun hleads hs => hs.leads hleads) hs₀

/-- Where a rule is entered, no more factors have been opened than characters have been passed. -/
theorem Enters.debt_le (h : Enters rule₀ s₀ rule s) :
    ∃ w, s₀.cursor.Passes w s.cursor ∧
      s.depth + rule₀.debt ≤ s₀.depth + rule.debt + solidCount w := by
  refine h.of_invariant (P := fun rule s => ∃ w, s₀.cursor.Passes w s.cursor ∧
    s.depth + rule₀.debt ≤ s₀.depth + rule.debt + solidCount w) ?_ ⟨[], .refl _, Nat.le_refl _⟩
  rintro rule s r u hleads ⟨v, hv, hle⟩
  obtain ⟨w, hw, hdebt⟩ := hleads.debt_le
  refine ⟨v ++ w, hv.trans hw.cursor, ?_⟩
  rw [solidCount_append]
  omega

/-! ## What rules keep -/

/-- What a rule that was started in `s` has kept when it ends, with a finding or with a failure. -/
structure Keeps (s : State) (reply : Reply Expr) : Prop where
  /-- As many factors are open. -/
  depth_eq : reply.state.depth = s.depth
  /-- As many may be open. -/
  limit_eq : reply.state.limit = s.limit
  /-- The text is the same. -/
  source_eq : reply.state.cursor.source = s.cursor.source
  /-- The cursor has not gone back. -/
  position_le : s.cursor.position ≤ reply.state.cursor.position
  /-- A finding takes up more than spaces. -/
  solid : ∀ e, reply.result = .ok e →
    ∃ w, s.cursor.Passes w reply.state.cursor ∧ ∃ c ∈ w, c ≠ ' '

/-- A run keeps the books; what it has to pass depends on what its rule makes. -/
theorem Runs.keeps (h : Runs rule s reply) (hsolid : ∀ w e, rule.Makes w e → 0 < solidCount w) :
    Keeps s reply := by
  obtain ⟨w, hw⟩ := h.reaches
  refine ⟨hw.depth_eq, hw.limit_eq, hw.cursor.source_eq, hw.position_le, fun e he => ?_⟩
  obtain ⟨result, t⟩ := reply
  obtain rfl : result = .ok e := he
  obtain ⟨v, hv, hmakes⟩ := h.makes
  obtain ⟨c, hc, hspace⟩ := List.countP_pos_iff.mp (hsolid v e hmakes)
  exact ⟨v, hv.cursor, c, hc, by simpa using hspace⟩

/-- Spaces may be passed first. -/
theorem Keeps.of_passes (h : Keeps t reply) (hpass : s.Passes g t) : Keeps s reply := by
  refine ⟨h.depth_eq.trans hpass.depth_eq, h.limit_eq.trans hpass.limit_eq,
    h.source_eq.trans hpass.cursor.source_eq, hpass.reaches.position_le.trans h.position_le,
    fun e he => ?_⟩
  obtain ⟨w, hw, c, hc, hspace⟩ := h.solid e he
  exact ⟨g ++ w, hpass.cursor.trans hw, c, List.mem_append_right g hc, hspace⟩

theorem keeps_chain (level : Level) (s : State) : Keeps s (chain level s).reply :=
  (runs_reply (.chain level) s).keeps fun _ _ h => Reads.solidCount_pos h

theorem keeps_factor (s : State) : Keeps s (factor s).reply :=
  (runs_reply .factor s).keeps fun _ _ h => Reads.solidCount_pos h

theorem keeps_primary (s : State) : Keeps s (primary s).reply := by
  obtain ⟨g, hskip⟩ := s.skips_skipSpaces
  rw [reply_primary]
  refine ((runs_reply .openPrimary s.skipSpaces).keeps fun w e h => ?_).of_passes hskip.passes
  -- A primary is an atom, or a function with its argument.
  rcases h with h | ⟨-, h⟩ <;> exact Reads.solidCount_pos h

/-- Where the books of a state were in order, they are so where a rule has ended. -/
theorem Keeps.inOrder (h : Keeps s reply) (hs : s.InOrder limit text) :
    reply.state.InOrder limit text :=
  .of_source (h.source_eq.trans hs.source_eq) (h.limit_eq.trans hs.limit_eq)
    (h.depth_eq.trans_le hs.depth_le)

/-! ## Counting in words -/

/-- The number of open factors fits into a word. -/
theorem State.InOrder.toNat_depth {limit : UInt64} (h : s.InOrder limit.toNat text) :
    (UInt64.ofNat s.depth).toNat = s.depth :=
  UInt64.toNat_ofNat_of_lt' (Nat.lt_of_le_of_lt h.depth_le limit.toNat_lt)

/-- Where a factor may be opened, the open factors can be counted up in words, and down again when
it is closed. -/
theorem State.InOrder.toNat_enter_leave {limit : UInt64} (h : s.InOrder limit.toNat text)
    (hdepth : s.depth < s.limit) :
    (UInt64.ofNat s.depth + 1).toNat = s.enter.depth ∧
      (UInt64.ofNat (openFactor s.enter).state.depth - 1).toNat =
        (openFactor s.enter).state.leave.depth := by
  have henter : s.enter.InOrder limit.toNat text := h.leads (.starts (.factor hdepth))
  have hup : UInt64.ofNat s.enter.depth = UInt64.ofNat s.depth + 1 := UInt64.ofNat_add _ _
  -- Whether it succeeds or fails, the factor ends with as many factors open as once it was opened.
  have hend : (openFactor s.enter).state.depth = s.enter.depth :=
    (runs_reply .openFactor s.enter).depth_eq
  constructor
  · rw [← hup, henter.toNat_depth]
  · rw [State.leave, hend, hup, UInt64.add_sub_cancel, h.toNat_depth]
    rfl

/-! ## The books of a parse -/

/-- The books of the parse of a text, where it enters a rule. -/
structure Books (limit : UInt64) (text : String) (rule : Rule) (s : State) : Prop where
  /-- They are in order. -/
  entered : s.InOrder limit.toNat text
  /-- The rule comes to an end, and there they are in order again. -/
  ended : Runs rule s (rule.reply s) ∧ (rule.reply s).state.InOrder limit.toNat text
  /-- Only so many rules lead to each other from here, whatever the limit. -/
  bounded : ∀ links, List.IsChain Leads ((rule, s) :: links) → links.length ≤ 6 * s.remaining + 5
  /-- No rule leads back in the text. -/
  forward : ∀ r u, Leads (rule, s) (r, u) → s.cursor.position ≤ u.cursor.position
  /-- Each rule of the grammar that is called here keeps them, and in order. -/
  kept : ∀ call ∈ [chain .sum, chain .product, factor, primary],
    Keeps s (call s).reply ∧ (call s).reply.state.InOrder limit.toNat text
  /-- If a factor may be opened here, the open factors can be counted up in words, and down again
  when it is closed. -/
  counted : s.depth < s.limit →
    (UInt64.ofNat s.depth + 1).toNat = s.enter.depth ∧
      (UInt64.ofNat (openFactor s.enter).state.depth - 1).toNat =
        (openFactor s.enter).state.leave.depth
  /-- A limit above the number of characters never keeps a factor from being opened. -/
  opened : solidCount text.toList < limit.toNat → rule = .factor → s.depth < s.limit

/-- Wherever the parse of a text enters a rule, its books are in order, whatever has been read so
far. Each rule that is called there comes to an end, and keeps the books, whether it succeeds or
fails; only the cursor goes on, and behind more than spaces if the rule succeeds. That there is an
end does not depend on the limit, which may be any word of 64 bits. -/
theorem rules_keep_books (limit : UInt64) (text : String)
    (h : Enters (.chain .sum) (.start limit.toNat text.toList) rule s) :
    Books limit text rule s := by
  have hs := h.inOrder (.start limit.toNat text)
  have hrun := runs_reply rule s
  refine ⟨hs, ⟨hrun, ?ended⟩, fun links hlinks => ?bounded, fun r u => Leads.position_le,
    fun call hcall => ?kept, hs.toNat_enter_leave, fun hlimit hrule => ?opened⟩
  case ended =>
    obtain ⟨w, hw⟩ := hrun.reaches
    exact hs.reaches hw
  case bounded => exact (length_le_of_isChain hlinks).trans (Nat.add_le_add_left rule.rank_le _)
  case kept =>
    have hkeeps : Keeps s (call s).reply := by
      simp only [List.mem_cons, List.not_mem_nil, or_false] at hcall
      rcases hcall with rfl | rfl | rfl | rfl
      · exact keeps_chain .sum s
      · exact keeps_chain .product s
      · exact keeps_factor s
      · exact keeps_primary s
    exact ⟨hkeeps, hkeeps.inOrder hs⟩
  case opened =>
    -- The characters passed so far are some of those of the text.
    obtain ⟨w, hw, hle⟩ := h.debt_le
    have htext : text.toList = w ++ s.cursor.rest := hw.rest_eq
    rw [htext, solidCount_append] at hlimit
    subst hrule
    rw [hs.limit_eq]
    simp only [Rule.debt, State.start] at hle
    omega

/-- Behind a sign a second factor is entered, here under the highest limit of all. -/
theorem rules_keep_books_sign :
    ∃ s : State, s.depth = 1 ∧
      Enters (.chain .sum) (.start (18446744073709551615 : UInt64).toNat "-(2".toList) .factor s ∧
      Books 18446744073709551615 "-(2" .factor s := by
  have hopen : Enters (.chain .sum)
      (.start (18446744073709551615 : UInt64).toNat "-(2".toList) .openFactor
      (State.start (18446744073709551615 : UInt64).toNat "-(2".toList).enter :=
    .start (.start (.start .first .chain) .chain) (.factor (by decide))
  have hsign := hopen.start
    (@Starts.sign _ _ [] '-' .minus .nil (State.passes_advance rfl) rfl)
  exact ⟨_, rfl, hsign, rules_keep_books _ _ hsign⟩

end Calculator.Parser
