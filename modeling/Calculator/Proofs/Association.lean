import Calculator.Proofs.Completeness
import Calculator.Proofs.Continuations

/-!
# Sums lean to the left

An expression in front of a `+` or a `-` counts as if it stood in parentheses, whatever follows the
operator. A chain leans to the left, so once an expression has been read as far as the operator, all
that is left of it is its value; and this is what a group leaves too. From there on both texts are
parsed in the same way, up to the two parentheses by which their places differ.

## Main definitions

* `Failure.later`: the same failure, further behind in the text.

## Main results

* `alike_chain`: chains of equal values in front of the same text.
* `evaluate_group_append_operator`: an expression and its group in front of an operator.
-/

namespace Calculator

/-- The same failure, detected so many bytes later in the text. -/
def Failure.later (bytes : Nat) (f : Failure) : Failure :=
  { f with position := f.position + bytes }

namespace Parser

open Grammar

variable {level : Level} {s s' d d' : State} {e e' : Expr} {w w' : List Char}
  {reply reply' : Reply Expr} {lead bytes : Nat}

/-- Chains of equal values, in front of the same text that does not go on with their last operands,
are alike, however they are spelled. -/
theorem alike_chain (he : Completes (.chain level) e w) (he' : Completes (.chain level) e' w')
    (hvalue : e.value = e'.value) (hd : s.Passes w d) (hd' : s'.Passes w' d')
    (hrest : d'.cursor.rest = d.cursor.rest) (hposition : s'.cursor.position = s.cursor.position)
    (hdepth : s'.depth = s.depth) (hlimit : s'.limit = s.limit)
    (hnest : s.depth + e.nest ≤ s.limit) (hnest' : s'.depth + e'.nest ≤ s'.limit)
    (hdelim : Delimits (.operand level) w d.cursor.rest)
    (hdelim' : Delimits (.operand level) w' d'.cursor.rest) (h : Runs (.chain level) s reply) :
    ∃ reply', Runs (.chain level) s' reply' ∧
      reply.Alike (byteLength w) (byteLength w') reply' := by
  obtain ⟨t, ht, hruns⟩ := he s d hd hnest hdelim
  obtain ⟨t', ht', hruns'⟩ := he' s' d' hd' hnest' hdelim'
  have hstate : t.Alike (byteLength w) (byteLength w') t' := by
    refine State.Alike.of_reaches ht ht' ?_ hposition hdepth hlimit
    rw [ht.cursor.unique hd.cursor, ht'.cursor.unique hd'.cursor, hrest]
  -- Behind the chains only their values count.
  have hmore := runs_reply (.more level e) t
  obtain ⟨reply', hmore', hreply⟩ := hmore.alike (.more level hvalue) hstate
  rw [h.unique (hruns _ hmore)]
  exact ⟨reply', hruns' _ hmore', hreply⟩

/-- The outcomes of parses that are alike differ in the positions of failures. -/
theorem Reply.Alike.map_value_eq (h : reply.Alike lead (lead + bytes) reply') :
    reply'.result.map Expr.value =
      (reply.result.map Expr.value).mapError (Failure.later bytes) := by
  cases h with
  | ok hvalue =>
    show Except.ok _ = Except.ok _
    rw [hvalue]
  | @error cause position position' _ _ hposition =>
    obtain rfl : position' = position + bytes := by omega
    rfl

/-- A group is as good an expression as its content. -/
theorem Completes.group_expression (h : Completes .expression e w) :
    Completes .expression (.group e) ('(' :: (w ++ [')'])) := by
  have hgap : Gap [] := .nil
  have hfactor : Completes (.operand .product) (.group e) ('(' :: (w ++ [')'])) :=
    (Completes.group hgap hgap h).atom
  have hterm : Completes (.operand .sum) (.group e) ('(' :: (w ++ [')'])) := hfactor.single
  exact hterm.single

/-- An expression and its group are alike in front of an operator that joins terms. -/
theorem Parses.exists_group {limit : Nat} {op : Operator} {tail : List Char}
    (hop : op.level = .sum) (he : Completes .expression e w) (hnest : e.nest < limit)
    (h : Parses limit (w ++ op.symbol :: tail) reply) :
    ∃ reply', Parses limit ('(' :: (w ++ [')']) ++ op.symbol :: tail) reply' ∧
      reply.Alike (byteLength w) (byteLength w + 2) reply' := by
  obtain ⟨d, hd, hdrest⟩ := State.exists_passes (s := .start limit (w ++ op.symbol :: tail)) rfl
  obtain ⟨d', hd', hdrest'⟩ := State.exists_passes
    (s := .start limit ('(' :: (w ++ [')']) ++ op.symbol :: tail)) rfl
  have hbytes : byteLength w + 2 = byteLength ('(' :: (w ++ [')'])) := by
    rw [byteLength_cons, byteLength_append]
    show byteLength w + 2 = 1 + (byteLength w + 1)
    omega
  have hdelim : ∀ v, Delimits (.operand .sum) v (op.symbol :: tail) := by
    intro v
    rw [← hop]
    exact delimits_symbol op v tail
  rw [hbytes]
  refine h.alike fun reply hrun => ?_
  refine alike_chain he he.group_expression rfl hd hd' (hdrest'.trans hdrest.symm) rfl rfl rfl
    ?_ ?_ ?_ ?_ hrun
  · show 0 + e.nest ≤ limit
    omega
  · show 0 + (1 + e.nest) ≤ limit
    omega
  · rw [hdrest]
    exact hdelim w
  · rw [hdrest']
    exact hdelim _

end Parser

open Calculator.Parser

/-- Sums lean to the left whatever follows. In front of a `+` or a `-`, an expression may be put in
parentheses: the text has the same value, or fails for the same cause two bytes later. One more
factor may be open than for the expression alone, because a group opens one. -/
theorem evaluate_group_append_operator {limit : Nat} {text : String} {v : Float}
    (h : evaluate ⟨limit⟩ text = .ok v) {op : Operator} (hop : op.level = .sum) (tail : String) :
    evaluate ⟨limit + 1⟩ ("(" ++ text ++ ")" ++ String.singleton op.symbol ++ tail) =
      (evaluate ⟨limit + 1⟩ (text ++ String.singleton op.symbol ++ tail)).mapError
        (Failure.later 2) := by
  obtain ⟨e, he, hnest, -⟩ := exists_completes_of_evaluate h
  have hplain : (text ++ String.singleton op.symbol ++ tail).toList =
      text.toList ++ op.symbol :: tail.toList := by simp
  have hgroup : ("(" ++ text ++ ")" ++ String.singleton op.symbol ++ tail).toList =
      '(' :: (text.toList ++ [')']) ++ op.symbol :: tail.toList := by simp
  have hparse := parses_parse (limit + 1) (text.toList ++ op.symbol :: tail.toList)
  obtain ⟨reply', hparse', hreply⟩ :=
    Parses.exists_group hop he (Nat.lt_succ_of_le hnest) hparse
  show (parse (limit + 1) _).result.map Expr.value =
    ((parse (limit + 1) _).result.map Expr.value).mapError (Failure.later 2)
  rw [hplain, hgroup, hparse'.parse_eq]
  exact hreply.map_value_eq

/-- Behind the operator too many factors are opened, in both texts at the same place. -/
theorem evaluate_group_append_operator_too_deep :
    evaluate ⟨1⟩ "1-2" = .ok (Float.ofBits 0xbff0000000000000) ∧
      Operator.subtract.level = .sum ∧
      evaluate ⟨2⟩ "1-2-((3))" = .error ⟨.nestingTooDeep 2, 6⟩ ∧
      evaluate ⟨2⟩ "(1-2)-((3))" = .error ⟨.nestingTooDeep 2, 8⟩ := by
  have hvalue : evaluate ⟨1⟩ "1-2" = .ok (Float.ofBits 0xbff0000000000000) := by decide +kernel
  have hlevel : Operator.subtract.level = .sum := rfl
  have hdeep : evaluate ⟨2⟩ "1-2-((3))" = .error ⟨.nestingTooDeep 2, 6⟩ := by decide +kernel
  refine ⟨hvalue, hlevel, hdeep, ?_⟩
  have h := evaluate_group_append_operator hvalue hlevel "((3))"
  exact h.trans (congrArg (Except.mapError (Failure.later 2)) hdeep)

end Calculator
