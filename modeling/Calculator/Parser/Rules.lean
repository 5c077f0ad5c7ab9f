import Calculator.Expr
import Calculator.Parser.Reply

/-!
# The rules of the grammar

One function a rule:

* an expression is a chain of terms joined by `+` and `-`, a term a chain of factors joined by `*`
  and `/` (`chain`, with `more` for what follows the first operand);
* a factor is a sign in front of a factor, or a primary that may be raised to a factor (`factor`);
* a primary is a group in parentheses, a numeral, a constant, or a function and the factor that
  follows it (`primary`, with `named` for names).

Spaces may stand between tokens. A rule looks at the next character only and never goes back, and it
passes a character before it starts another rule of the same rank; so the rules are total.

Every way in which rules nest leads through a factor, so counting the open factors bounds the
nesting.

The equations at the end (`reply_chain` and the like) say what each rule replies, without the bounds
that the rules carry.
-/

namespace Calculator.Parser

/-- Skip spaces, then run a rule. -/
@[inline]
def spaced {α : Type} (s : State)
    (rule : (t : State) → t.remaining ≤ s.remaining → Bounded t α) : Bounded s α :=
  (rule s.skipSpaces s.remaining_skipSpaces_le).widen s.remaining_skipSpaces_le

/-- Run a rule with one more factor open, if another one may be open. -/
@[inline]
def nested {α : Type} (s : State)
    (rule : (t : State) → t.remaining ≤ s.remaining → Bounded t α) : Bounded s α :=
  if s.depth < s.limit then (rule s.enter (Nat.le_refl _)).leave
  else .fail (.nestingTooDeep s.limit) s.cursor.position s (Nat.le_refl _)

/-- Pass the next character, then run a rule. -/
@[inline]
def past {α : Type} (s : State) (h : s.advance.remaining < s.remaining)
    (rule : (t : State) → t.remaining < s.remaining → Bounded t α) : Bounded s α :=
  (rule s.advance h).widen (Nat.le_of_lt h)

/-- Read a numeral, the longest run of digits and points. -/
def numeral (s : State) : Bounded s Expr :=
  let run := s.run isNumeralChar
  match Numeral.ofRun? run with
  | some n => .done (.numeral n) (s.skipWhile isNumeralChar) (s.remaining_skipWhile_le _)
  | none => .fail (.malformedNumeral (String.ofList run)) s.cursor.position
      (s.skipWhile isNumeralChar) (s.remaining_skipWhile_le _)

/-- Close a group whose content has been read. -/
def close (inner : Expr) (s : State) : Bounded s Expr :=
  match h : s.eat ')' with
  | (true, t) => .done (.group inner) t (State.remaining_eat_le h)
  | (false, t) => .fail .unclosedGroup t.cursor.position t (State.remaining_eat_le h)

/-- The place of a level in the order in which rules start each other without passing a character:
expressions before terms, terms before factors. -/
def levelRank : Level → Nat
  | .sum => 5
  | .product => 3

private theorem levelRank_le (level : Level) : levelRank level ≤ 5 := by
  cases level <;> decide

-- Rules start each other with less to come, or with as much to come and a smaller rank. The measure
-- weighs a character more than all ranks together.
mutual

/-- An expression, or a term: operands joined by the operators of a level. -/
def chain (level : Level) (s : State) : Bounded s Expr :=
  (operand level s).andThen fun left t _ => more level left t
termination_by 8 * s.remaining + levelRank level + 2
decreasing_by all_goals omega

/-- An operand of a level: a term in an expression, a factor in a term. -/
def operand (level : Level) (s : State) : Bounded s Expr :=
  match level with
  | .sum => chain .product s
  | .product => factor s
termination_by 8 * s.remaining + levelRank level + 1
decreasing_by all_goals simp only [levelRank]; omega

/-- The operators and operands that follow the left operand of a level. -/
def more (level : Level) (left : Expr) (s : State) : Bounded s Expr :=
  spaced s fun t _ =>
    match h : t.next? level.operator? with
    | some op => past t (State.remaining_advance_lt_of_next? h) fun u _ =>
      (operand level u).andThen fun right v _ => more level (.binary op left right) v
    | none => .done left t (Nat.le_refl _)
termination_by 8 * s.remaining
decreasing_by all_goals have := levelRank_le level; omega

/-- A factor: a sign and the factor it applies to, or a primary and the factor it is raised to. -/
def factor (s : State) : Bounded s Expr :=
  nested s fun s _ => spaced s fun t _ =>
    match h : t.next? Sign.ofChar? with
    | some sign => past t (State.remaining_advance_lt_of_next? h) fun u _ =>
      (factor u).andThen fun operand v _ => .done (.signed sign operand) v (Nat.le_refl _)
    | none => (primary t).andThen fun base u _ =>
      match h : u.eat '^' with
      | (true, v) =>
        have hlt : v.remaining < u.remaining := State.remaining_eat_lt h
        .widen (Nat.le_of_lt hlt) <| (factor v).andThen fun exponent w _ =>
          .done (.power base exponent) w (Nat.le_refl _)
      | (false, v) => .done base v (State.remaining_eat_le h)
termination_by 8 * s.remaining + 3
decreasing_by all_goals omega

/-- A primary: a group, a numeral, a constant, or a function and its argument. -/
def primary (s : State) : Bounded s Expr :=
  spaced s fun t _ =>
    match h : t.peek with
    | none => .fail .unexpectedEnd t.cursor.position t (Nat.le_refl _)
    | some next =>
      if next = '(' then
        past t (State.remaining_advance_lt h) fun u _ =>
          (chain .sum u).andThen fun inner v _ => close inner v
      else if isNumeralChar next then numeral t
      else if hnext : next.isLower then named t (State.remaining_lookUp_lt h hnext)
      else .fail (.unexpectedCharacter next) t.cursor.position t (Nat.le_refl _)
termination_by 8 * s.remaining + 2
decreasing_by
  · have := levelRank_le .sum; omega
  · omega

/-- A name that comes next: a constant, or a function and its argument. -/
def named (s : State) (h : s.lookUp.remaining < s.remaining) : Bounded s Expr :=
  match Builtin.lookup? s.word with
  | some (.constant c) => .done (.constant c) s.lookUp (Nat.le_of_lt h)
  | some (.function f) => .widen (Nat.le_of_lt h) <|
    (factor s.lookUp).andThen fun argument t _ => .done (.call f argument) t (Nat.le_refl _)
  | none => .fail (.unknownName s.word) s.cursor.position s.lookUp (Nat.le_of_lt h)
termination_by 8 * s.remaining + 1
decreasing_by omega

end

/-! ## What the rules reply -/

theorem reply_chain (level : Level) (s : State) :
    (chain level s).reply =
      (operand level s).reply.andThen fun left t => (more level left t).reply := by
  rw [chain]
  exact Bounded.reply_andThen _ fun _ _ _ => rfl

theorem reply_operand_sum (s : State) : (operand .sum s).reply = (chain .product s).reply := by
  rw [operand]

theorem reply_operand_product (s : State) : (operand .product s).reply = (factor s).reply := by
  rw [operand]

theorem reply_more (level : Level) (left : Expr) (s : State) :
    (more level left s).reply =
      match s.skipSpaces.next? level.operator? with
      | some op =>
        (operand level s.skipSpaces.advance).reply.andThen fun right t =>
          (more level (.binary op left right) t).reply
      | none => ⟨.ok left, s.skipSpaces⟩ := by
  rw [more]
  simp only [spaced, past, Bounded.widen]
  split
  next op h =>
    simp only [h]
    exact Bounded.reply_andThen _ fun _ _ _ => rfl
  next h => simp only [h, Bounded.done]

/-- What is replied to a primary that has been read. -/
def openPower (base : Expr) (s : State) : Reply Expr :=
  match s.eat '^' with
  | (true, t) =>
    (factor t).reply.andThen fun exponent u => ⟨.ok (.power base exponent), u⟩
  | (false, t) => ⟨.ok base, t⟩

/-- What a factor replies once it is open. -/
def openFactor (s : State) : Reply Expr :=
  match s.skipSpaces.next? Sign.ofChar? with
  | some sign =>
    (factor s.skipSpaces.advance).reply.andThen fun operand t => ⟨.ok (.signed sign operand), t⟩
  | none => (primary s.skipSpaces).reply.andThen openPower

theorem reply_factor (s : State) :
    (factor s).reply =
      if s.depth < s.limit then ⟨(openFactor s.enter).result, (openFactor s.enter).state.leave⟩
      else ⟨.error ⟨.nestingTooDeep s.limit, s.cursor.position⟩, s⟩ := by
  rw [factor]
  simp only [nested, spaced, past, Bounded.widen, openFactor]
  split
  next hdepth =>
    simp only [Bounded.leave]
    split
    next sign h =>
      simp only [h]
      rw [Bounded.reply_andThen _ fun _ _ _ => rfl]
      rfl
    next h =>
      simp only [h]
      rw [Bounded.reply_andThen]
      intro base t _
      rw [openPower]
      split
      next u h =>
        simp only [h]
        rw [Bounded.reply_andThen _ fun _ _ _ => rfl]
        rfl
      next u h =>
        simp only [h]
        rfl
  next => rfl

/-- What a name replies once it has been looked up. -/
def openName (s : State) : Reply Expr :=
  match Builtin.lookup? s.word with
  | some (.constant c) => ⟨.ok (.constant c), s.lookUp⟩
  | some (.function f) =>
    (factor s.lookUp).reply.andThen fun argument t => ⟨.ok (.call f argument), t⟩
  | none => ⟨.error ⟨.unknownName s.word, s.cursor.position⟩, s.lookUp⟩

theorem reply_named (s : State) (h : s.lookUp.remaining < s.remaining) :
    (named s h).reply = openName s := by
  rw [named, openName]
  split
  next => rfl
  next =>
    simp only [Bounded.widen]
    rw [Bounded.reply_andThen _ fun _ _ _ => rfl]
    rfl
  next => rfl

theorem reply_close (inner : Expr) (s : State) :
    (close inner s).reply =
      match s.eat ')' with
      | (true, t) => ⟨.ok (.group inner), t⟩
      | (false, t) => ⟨.error ⟨.unclosedGroup, t.cursor.position⟩, t⟩ := by
  rw [close]
  split
  next h => simp only [h, Bounded.done]
  next h => simp only [h, Bounded.fail]

theorem reply_numeral (s : State) :
    (numeral s).reply =
      match Numeral.ofRun? (s.run isNumeralChar) with
      | some n => ⟨.ok (.numeral n), s.skipWhile isNumeralChar⟩
      | none =>
        ⟨.error ⟨.malformedNumeral (String.ofList (s.run isNumeralChar)), s.cursor.position⟩,
          s.skipWhile isNumeralChar⟩ := by
  simp only [numeral]
  split <;> rfl

/-- What a primary replies where its first character is the next one. -/
def openPrimary (s : State) : Reply Expr :=
  match s.peek with
  | none => ⟨.error ⟨.unexpectedEnd, s.cursor.position⟩, s⟩
  | some next =>
    if next = '(' then
      (chain .sum s.advance).reply.andThen fun inner t => (close inner t).reply
    else if isNumeralChar next then (numeral s).reply
    else if next.isLower then openName s
    else ⟨.error ⟨.unexpectedCharacter next, s.cursor.position⟩, s⟩

theorem reply_primary (s : State) : (primary s).reply = openPrimary s.skipSpaces := by
  rw [primary]
  simp only [spaced, past, Bounded.widen, openPrimary]
  split
  next h => simp only [h, Bounded.fail]
  next next h =>
    simp only [h]
    split
    next => rw [Bounded.reply_andThen _ fun _ _ _ => rfl]
    next =>
      split
      next => rfl
      next =>
        split
        next => rw [reply_named]
        next => rfl

end Calculator.Parser
