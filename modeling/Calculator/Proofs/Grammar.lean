import Calculator.Proofs.Passing
import Mathlib.Data.List.TakeWhile

/-!
# The grammar

The texts that are expressions, and what they mean, said without the parser. A syntax tree carries
its category, so only trees of the grammar can be built:

* an expression is terms joined by `+` and `-`, a term is factors joined by `*` and `/`, and both
  lean to the left;
* a factor is a sign or a function in front of a factor, or an atom that may be raised to a factor;
* an atom is an expression in parentheses, a number, or a constant.

A spelling of a tree writes its tokens one after the other, with any number of spaces around each.
Two names in a row need a space between them, because a name is the longest run of letters; the
only name that another one can follow is that of a function.

## Main definitions

* `Number`: the runs of digits and points that are numbers.
* `Tree`, `Tree.value`, `Tree.nest`: syntax trees, their values, and how deep they are nested.
* `Tree.Spells`: the spellings of a tree.

## Main results

* `value_expr`, `nest_expr`: a tree means what the expression made of it means.
* `ofRun?_run`, `exists_number_of_ofRun?`: numbers are the runs that are read as numerals.
-/

namespace Calculator

/-- The character that writes an operator. -/
def Operator.symbol : Operator → Char
  | .add => '+'
  | .subtract => '-'
  | .multiply => '*'
  | .divide => '/'

/-- The level of precedence of an operator. -/
def Operator.level : Operator → Level
  | .add => .sum
  | .subtract => .sum
  | .multiply => .product
  | .divide => .product

/-- The character that writes a sign. -/
def Sign.symbol : Sign → Char
  | .plus => '+'
  | .minus => '-'

/-- The letters of a constant. -/
def Constant.word : Constant → List Char
  | .pi => "pi".toList
  | .e => "e".toList

/-- The letters of a function. -/
def UnaryFunction.word : UnaryFunction → List Char
  | .sqrt => "sqrt".toList
  | .sin => "sin".toList
  | .cos => "cos".toList
  | .tan => "tan".toList
  | .ln => "ln".toList
  | .log => "log".toList
  | .exp => "exp".toList
  | .abs => "abs".toList

/-- Constants are looked up by their letters. -/
theorem Constant.word_eq (c : Constant) : c.word = (Builtin.constant c).name.toList := by
  cases c <;> rfl

/-- Functions are looked up by their letters. -/
theorem UnaryFunction.word_eq (f : UnaryFunction) : f.word = (Builtin.function f).name.toList := by
  cases f <;> rfl

/-- A level reads exactly the symbols of its operators. -/
theorem Level.operator?_eq_some_iff {level : Level} {c : Char} {op : Operator} :
    level.operator? c = some op ↔ op.level = level ∧ op.symbol = c := by
  constructor
  · intro h
    unfold Level.operator? at h
    split at h <;> cases h <;> exact ⟨rfl, rfl⟩
  · rintro ⟨rfl, rfl⟩
    cases op <;> rfl

/-- Signs are read from exactly their symbols. -/
theorem Sign.ofChar?_eq_some_iff {c : Char} {sign : Sign} :
    Sign.ofChar? c = some sign ↔ sign.symbol = c := by
  constructor
  · intro h
    unfold Sign.ofChar? at h
    split at h <;> cases h <;> rfl
  · rintro rfl
    cases sign <;> rfl

/-- Every expression has a factor in it. -/
theorem Expr.nest_pos (e : Expr) : 0 < e.nest := by
  induction e with
  | power base exponent ih _ => exact Nat.lt_of_lt_of_le ih (Nat.le_max_left _ _)
  | binary op left right ih _ => exact Nat.lt_of_lt_of_le ih (Nat.le_max_left _ _)
  | _ => simp only [Expr.nest]; omega

namespace Grammar

/-- A run of digits and points that has a digit and at most one point. -/
structure Number where
  /-- The run. -/
  run : List Char
  /-- It holds digits and points only. -/
  chars : ∀ c ∈ run, isNumeralChar c = true
  /-- It has a digit. -/
  digit : ∃ c ∈ run, c.isDigit = true
  /-- It has at most one point. -/
  point : run.count '.' ≤ 1

/-- The numeral that a number writes: all digits, and how many of them stand behind the point. -/
def Number.toNumeral (n : Number) : Numeral where
  digits := Nat.ofDigitChars 10 (n.run.filter Char.isDigit) 0
  places := (n.run.dropWhile (· != '.')).length - 1

/-- A digit is no point. -/
theorem ne_point_of_isDigit {c : Char} (h : c.isDigit = true) : c ≠ '.' := by
  rintro rfl
  simp at h

theorem count_point_of_digits {w : List Char} (h : ∀ c ∈ w, c.isDigit = true) :
    w.count '.' = 0 :=
  List.count_eq_zero.mpr fun hmem => ne_point_of_isDigit (h _ hmem) rfl

/-- A run without points is its own digits. -/
theorem digits_of_count_point {w : List Char} (hchars : ∀ c ∈ w, isNumeralChar c = true)
    (hcount : w.count '.' = 0) : ∀ c ∈ w, c.isDigit = true := by
  intro c hc
  have hne : c ≠ '.' := by
    rintro rfl
    exact List.count_eq_zero.mp hcount hc
  simpa [isNumeralChar, hne] using hchars c hc

/-- A run of digits and points is digits only, or it is cut in two by its first point. -/
theorem digits_or_point {run : List Char} (hchars : ∀ c ∈ run, isNumeralChar c = true) :
    (∀ c ∈ run, c.isDigit = true) ∨
      ∃ whole fraction, run = whole ++ '.' :: fraction ∧ ∀ c ∈ whole, c.isDigit = true := by
  induction run with
  | nil => exact Or.inl (by simp)
  | cons c run ih =>
    rcases hc : c.isDigit with _ | _
    · have hpoint : c = '.' := by simpa [isNumeralChar, hc] using hchars c List.mem_cons_self
      exact Or.inr ⟨[], run, by rw [hpoint]; rfl, by simp⟩
    · rcases ih fun d hd => hchars d (List.mem_cons_of_mem c hd) with h | ⟨whole, fraction, rfl, h⟩
      · exact Or.inl (by simpa [hc] using h)
      · exact Or.inr ⟨c :: whole, fraction, rfl, by simpa [hc] using h⟩

theorem ofRun?_of_digits {run : List Char} (h : ∀ c ∈ run, c.isDigit = true) :
    Numeral.ofRun? run = Numeral.ofParts? run [] := by
  have htake : run.takeWhile Char.isDigit = run := List.takeWhile_eq_self_iff.mpr h
  have hdrop : run.dropWhile Char.isDigit = [] := List.dropWhile_eq_nil_iff.mpr h
  simp only [Numeral.ofRun?, htake, hdrop]

theorem ofRun?_of_point {whole fraction : List Char} (h : ∀ c ∈ whole, c.isDigit = true) :
    Numeral.ofRun? (whole ++ '.' :: fraction) =
      if fraction.all Char.isDigit then Numeral.ofParts? whole fraction else none := by
  have htake : (whole ++ '.' :: fraction).takeWhile Char.isDigit = whole := by
    rw [List.takeWhile_append_of_pos h]
    simp
  have hdrop : (whole ++ '.' :: fraction).dropWhile Char.isDigit = '.' :: fraction := by
    rw [List.dropWhile_append_of_pos h]
    simp
  simp only [Numeral.ofRun?, htake, hdrop]

/-- Numbers are read as the numerals that they write. -/
theorem ofRun?_run (n : Number) : Numeral.ofRun? n.run = some n.toNumeral := by
  obtain ⟨run, hchars, ⟨d, hd, hdigit⟩, hpoint⟩ := n
  -- Without a point all places are whole; with one, the digits behind it count as places.
  rcases digits_or_point hchars with h | ⟨whole, fraction, rfl, h⟩
  · have hfilter : run.filter Char.isDigit = run := List.filter_eq_self.mpr h
    have hdrop : run.dropWhile (· != '.') = [] :=
      List.dropWhile_eq_nil_iff.mpr fun c hc => by simpa using ne_point_of_isDigit (h c hc)
    have hrun : run ≠ [] := List.ne_nil_of_mem hd
    rw [ofRun?_of_digits h, Numeral.ofParts?]
    simp [Number.toNumeral, hfilter, hdrop, hrun]
  · have hcount : fraction.count '.' = 0 := by
      rw [List.count_append, List.count_cons_self] at hpoint
      omega
    have hfraction : ∀ c ∈ fraction, c.isDigit = true :=
      digits_of_count_point (fun c hc => hchars c (by simp [hc])) hcount
    have hfilter : (whole ++ '.' :: fraction).filter Char.isDigit = whole ++ fraction := by
      rw [List.filter_append, List.filter_eq_self.mpr h]
      simp [List.filter_eq_self.mpr hfraction]
    have hdrop : (whole ++ '.' :: fraction).dropWhile (· != '.') = '.' :: fraction := by
      rw [List.dropWhile_append_of_pos fun c hc => by simpa using ne_point_of_isDigit (h c hc)]
      simp
    have hparts : ¬ (whole = [] ∧ fraction = []) := by
      rintro ⟨rfl, rfl⟩
      obtain rfl : d = '.' := by simpa using hd
      simp at hdigit
    rw [ofRun?_of_point h, if_pos (List.all_eq_true.mpr hfraction), Numeral.ofParts?]
    simp [Number.toNumeral, hfilter, hdrop, hparts]

/-- What is read as a numeral is a number that writes it. -/
theorem exists_number_of_ofRun? {run : List Char} {n : Numeral}
    (hchars : ∀ c ∈ run, isNumeralChar c = true) (hn : Numeral.ofRun? run = some n) :
    ∃ m : Number, m.run = run ∧ m.toNumeral = n := by
  -- It is enough that the run is a number, because numbers are read in one way only.
  suffices h : (∃ c ∈ run, c.isDigit = true) ∧ run.count '.' ≤ 1 by
    refine ⟨⟨run, hchars, h.1, h.2⟩, rfl, ?_⟩
    exact Option.some.inj ((ofRun?_run _).symm.trans hn)
  rcases digits_or_point hchars with h | ⟨whole, fraction, rfl, h⟩
  · rw [ofRun?_of_digits h, Numeral.ofParts?] at hn
    rcases run with _ | ⟨c, run⟩
    · simp at hn
    · refine ⟨⟨c, List.mem_cons_self, h c List.mem_cons_self⟩, ?_⟩
      rw [count_point_of_digits h]
      omega
  · rw [ofRun?_of_point h] at hn
    rcases hfraction : fraction.all Char.isDigit with _ | _
    · simp [hfraction] at hn
    · rw [hfraction, if_pos rfl, Numeral.ofParts?] at hn
      have hfraction := List.all_eq_true.mp hfraction
      refine ⟨?_, ?_⟩
      · rcases whole with _ | ⟨c, whole⟩
        · rcases fraction with _ | ⟨c, fraction⟩
          · simp at hn
          · exact ⟨c, by simp, hfraction c List.mem_cons_self⟩
        · exact ⟨c, by simp, h c List.mem_cons_self⟩
      · rw [List.count_append, List.count_cons_self, count_point_of_digits h,
          count_point_of_digits hfraction]

/-- A run of digits and points that is no number has no digit, or more than one point. -/
theorem not_isDigit_or_two_le_count {run : List Char}
    (hall : ∀ c ∈ run, isNumeralChar c = true) (hn : Numeral.ofRun? run = none) :
    (∀ c ∈ run, c.isDigit = false) ∨ 2 ≤ run.count '.' := by
  by_cases hdigit : ∃ c ∈ run, c.isDigit = true
  · refine Or.inr (Nat.lt_of_not_le fun hpoint => ?_)
    have h := ofRun?_run ⟨run, hall, hdigit, hpoint⟩
    rw [hn] at h
    cases h
  · refine Or.inl fun c hc => ?_
    by_contra hne
    exact hdigit ⟨c, hc, by simpa using hne⟩

/-- The syntactic categories. -/
inductive Category where
  /-- Operands joined by the operators of a level. -/
  | chain (level : Level)
  /-- What signs, functions and powers are made of. -/
  | factor
  /-- What stands for itself. -/
  | atom

namespace Category

/-- Terms joined by `+` and `-`. -/
abbrev expression : Category := chain .sum

/-- Factors joined by `*` and `/`. -/
abbrev term : Category := chain .product

/-- The category of what the operators of a level join. -/
def operand : Level → Category
  | .sum => term
  | .product => factor

/-- The characters, apart from spaces, that can go on with a text of a category behind its last
token. -/
def continues : Category → Char → Bool
  | .atom, _ => false
  | .factor, c => c == '^'
  | .chain .product, c => c == '^' || (Level.product.operator? c).isSome
  | .chain .sum, c =>
    c == '^' || (Level.product.operator? c).isSome || (Level.sum.operator? c).isSome

/-- A text of a level goes on as its operands do, and with the operators of the level. -/
theorem continues_chain (level : Level) (c : Char) :
    (chain level).continues c = ((operand level).continues c || (level.operator? c).isSome) := by
  cases level <;> rfl

end Category

/-- Syntax trees of a category. -/
inductive Tree : Category → Type where
  | number (n : Number) : Tree .atom
  | constant (c : Constant) : Tree .atom
  | group (inner : Tree .expression) : Tree .atom
  | atom (a : Tree .atom) : Tree .factor
  | power (base : Tree .atom) (exponent : Tree .factor) : Tree .factor
  -- Signs and functions take the whole factor behind them, with its power.
  | signed (sign : Sign) (operand : Tree .factor) : Tree .factor
  | call (f : UnaryFunction) (argument : Tree .factor) : Tree .factor
  -- Chains lean to the left.
  | single {level : Level} (x : Tree (.operand level)) : Tree (.chain level)
  | binary {level : Level} (op : Operator) (hlevel : op.level = level) (left : Tree (.chain level))
      (right : Tree (.operand level)) : Tree (.chain level)

namespace Tree

variable {c : Category}

/-- The value of a tree. Constants are the doubles nearest to them. Angles are in degrees, and `π`
radians are 180 of them. -/
def value : {c : Category} → Tree c → Float
  | _, .number n => n.toNumeral.value
  | _, .constant .pi => Float.ofBits 0x400921fb54442d18
  | _, .constant .e => Float.ofBits 0x4005bf0a8b145769
  | _, .group inner => inner.value
  | _, .atom a => a.value
  | _, .power base exponent => base.value.pow exponent.value
  | _, .signed .plus operand => operand.value
  | _, .signed .minus operand => -operand.value
  | _, .call .sqrt argument => argument.value.sqrt
  | _, .call .sin argument => (argument.value * (Float.ofBits 0x400921fb54442d18 / 180)).sin
  | _, .call .cos argument => (argument.value * (Float.ofBits 0x400921fb54442d18 / 180)).cos
  | _, .call .tan argument => (argument.value * (Float.ofBits 0x400921fb54442d18 / 180)).tan
  | _, .call .ln argument => argument.value.log
  | _, .call .log argument => argument.value.log10
  | _, .call .exp argument => argument.value.exp
  | _, .call .abs argument => argument.value.abs
  | _, .single x => x.value
  | _, .binary .add _ left right => left.value + right.value
  | _, .binary .subtract _ left right => left.value - right.value
  | _, .binary .multiply _ left right => left.value * right.value
  | _, .binary .divide _ left right => left.value / right.value

/-- How many factors are open at once where a tree is nested deepest. -/
def nest : {c : Category} → Tree c → Nat
  | _, .number _ => 1
  | _, .constant _ => 1
  | _, .group inner => 1 + inner.nest
  | _, .atom a => a.nest
  | _, .power base exponent => max base.nest (1 + exponent.nest)
  | _, .signed _ operand => 1 + operand.nest
  | _, .call _ argument => 1 + argument.nest
  | _, .single x => x.nest
  | _, .binary _ _ left right => max left.nest right.nest

/-- The expression that a tree stands for. -/
def expr : {c : Category} → Tree c → Expr
  | _, .number n => .numeral n.toNumeral
  | _, .constant c => .constant c
  | _, .group inner => .group inner.expr
  | _, .atom a => a.expr
  | _, .power base exponent => .power base.expr exponent.expr
  | _, .signed sign operand => .signed sign operand.expr
  | _, .call f argument => .call f argument.expr
  | _, .single x => x.expr
  | _, .binary op _ left right => .binary op left.expr right.expr

/-- The texts that spell a tree. Every token may have spaces in front of it and behind it. -/
inductive Spells : {c : Category} → Tree c → List Char → Prop
  | number {n : Number} {g g' : List Char} (hg : Gap g) (hg' : Gap g') :
      Spells (.number n) (g ++ n.run ++ g')
  | constant {c : Constant} {g g' : List Char} (hg : Gap g) (hg' : Gap g') :
      Spells (.constant c) (g ++ c.word ++ g')
  | group {inner : Tree .expression} {g w g' : List Char} (hg : Gap g) (hw : Spells inner w)
      (hg' : Gap g') : Spells (.group inner) (g ++ '(' :: (w ++ ')' :: g'))
  | atom {a : Tree .atom} {w : List Char} (hw : Spells a w) : Spells (.atom a) w
  | power {base : Tree .atom} {exponent : Tree .factor} {v w : List Char} (hv : Spells base v)
      (hw : Spells exponent w) : Spells (.power base exponent) (v ++ '^' :: w)
  | signed {sign : Sign} {operand : Tree .factor} {g w : List Char} (hg : Gap g)
      (hw : Spells operand w) : Spells (.signed sign operand) (g ++ sign.symbol :: w)
  -- The name ends where the argument starts, so the argument does not start with a letter.
  | call {f : UnaryFunction} {argument : Tree .factor} {g w : List Char} (hg : Gap g)
      (hw : Spells argument w) (hname : ∀ c ∈ w.head?, c.isLower = false) :
      Spells (.call f argument) (g ++ f.word ++ w)
  | single {level : Level} {x : Tree (.operand level)} {w : List Char} (hw : Spells x w) :
      Spells (.single x) w
  | binary {level : Level} {op : Operator} {hlevel : op.level = level} {left : Tree (.chain level)}
      {right : Tree (.operand level)} {v w : List Char} (hv : Spells left v) (hw : Spells right w) :
      Spells (.binary op hlevel left right) (v ++ op.symbol :: w)

/-- A tree and the expression made of it are nested alike. -/
theorem nest_expr (T : Tree c) : T.expr.nest = T.nest := by
  induction T with
  | number n => rfl
  | constant c => rfl
  | group inner ih => rw [expr, Expr.nest, nest, ih]
  | atom a ih => exact ih
  | power base exponent ihb ihe => rw [expr, Expr.nest, nest, ihb, ihe]
  | signed sign operand ih => rw [expr, Expr.nest, nest, ih]
  | call f argument ih => rw [expr, Expr.nest, nest, ih]
  | single x ih => exact ih
  | binary op _ left right ihl ihr => rw [expr, Expr.nest, nest, ihl, ihr]

/-- A spelling holds more than spaces. -/
theorem Spells.solidCount_pos {T : Tree c} {w : List Char} (h : T.Spells w) : 0 < solidCount w := by
  induction h with
  | @number n =>
    obtain ⟨d, hd, hdigit⟩ := n.digit
    have hspace : d ≠ ' ' := by
      rintro rfl
      simp at hdigit
    have hrun : 0 < solidCount n.run := List.countP_pos_iff.mpr ⟨d, hd, by simpa using hspace⟩
    simp only [solidCount_append]
    omega
  | @constant c =>
    have hname : 0 < solidCount c.word := by cases c <;> decide
    simp only [solidCount_append]
    omega
  | group _ _ _ ih => simp only [solidCount_append, solidCount_cons]; omega
  | atom _ ih => exact ih
  | power _ _ ih => simp only [solidCount_append]; omega
  | signed _ _ ih => simp only [solidCount_append, solidCount_cons]; omega
  | call _ _ _ ih => simp only [solidCount_append]; omega
  | single _ ih => exact ih
  | binary _ _ ih => simp only [solidCount_append]; omega

theorem Spells.ne_nil {T : Tree c} {w : List Char} (h : T.Spells w) : w ≠ [] := by
  rintro rfl
  exact absurd h.solidCount_pos (by simp [solidCount])

/-- Spaces may be added behind a spelling. -/
theorem Spells.append_gap {T : Tree c} {w g : List Char} (h : T.Spells w) (hg : Gap g) :
    T.Spells (w ++ g) := by
  induction h with
  | number hv hv' =>
    rw [List.append_assoc]
    exact .number hv (hv'.append hg)
  | constant hv hv' =>
    rw [List.append_assoc]
    exact .constant hv (hv'.append hg)
  | group hv hw hv' =>
    simp only [List.append_assoc, List.cons_append]
    exact .group hv hw (hv'.append hg)
  | atom _ ih => exact .atom ih
  | power hv _ _ ih =>
    rw [List.append_assoc]
    exact .power hv ih
  | signed hv _ ih =>
    rw [List.append_assoc]
    exact .signed hv ih
  | @call _ _ _ w hv _ hname ih =>
    rw [List.append_assoc]
    refine .call hv ih ?_
    -- The head is that of the argument, or a space.
    rcases w with _ | ⟨d, w⟩
    · rintro d hd
      rw [hg d (List.mem_of_mem_head? hd)]
      decide
    · exact hname
  | single _ ih => exact .single ih
  | binary hv _ _ ih =>
    rw [List.append_assoc]
    exact .binary hv ih

/-- Spaces may be added in front of a spelling. -/
theorem Spells.gap_append {T : Tree c} {w g : List Char} (h : T.Spells w) (hg : Gap g) :
    T.Spells (g ++ w) := by
  induction h with
  | number hv hv' =>
    rw [← List.append_assoc, ← List.append_assoc]
    exact .number (hg.append hv) hv'
  | constant hv hv' =>
    rw [← List.append_assoc, ← List.append_assoc]
    exact .constant (hg.append hv) hv'
  | group hv hw hv' =>
    rw [← List.append_assoc]
    exact .group (hg.append hv) hw hv'
  | atom _ ih => exact .atom ih
  | power _ hw ih _ =>
    rw [← List.append_assoc]
    exact .power ih hw
  | signed hv hw _ =>
    rw [← List.append_assoc]
    exact .signed (hg.append hv) hw
  | call hv hw hname _ =>
    rw [← List.append_assoc, ← List.append_assoc]
    exact .call (hg.append hv) hw hname
  | single _ ih => exact .single ih
  | binary _ hw ih _ =>
    rw [← List.append_assoc]
    exact .binary ih hw

end Tree

/-- A text that a tree of the category with this expression is spelled by. -/
def Reads (c : Category) (w : List Char) (e : Expr) : Prop :=
  ∃ T : Tree c, T.expr = e ∧ T.Spells w

namespace Reads

variable {v w g : List Char} {e : Expr}

theorem solidCount_pos {c : Category} (h : Reads c w e) : 0 < solidCount w := by
  obtain ⟨T, -, hw⟩ := h
  exact hw.solidCount_pos

theorem append_gap {c : Category} (h : Reads c w e) (hg : Gap g) : Reads c (w ++ g) e := by
  obtain ⟨T, hT, hw⟩ := h
  exact ⟨T, hT, hw.append_gap hg⟩

theorem gap_append {c : Category} (h : Reads c w e) (hg : Gap g) : Reads c (g ++ w) e := by
  obtain ⟨T, hT, hw⟩ := h
  exact ⟨T, hT, hw.gap_append hg⟩

theorem numeral {n : Numeral} (hchars : ∀ c ∈ w, isNumeralChar c = true)
    (hn : Numeral.ofRun? w = some n) : Reads .atom w (.numeral n) := by
  obtain ⟨m, rfl, rfl⟩ := exists_number_of_ofRun? hchars hn
  refine ⟨.number m, rfl, ?_⟩
  simpa using (Tree.Spells.number .nil .nil : (Tree.number m).Spells _)

theorem constant (c : Constant) : Reads .atom (Builtin.constant c).name.toList (.constant c) := by
  rw [← c.word_eq]
  refine ⟨.constant c, rfl, ?_⟩
  simpa using (Tree.Spells.constant .nil .nil : (Tree.constant c).Spells _)

theorem group (h : Reads .expression w e) : Reads .atom ('(' :: (w ++ [')'])) (.group e) := by
  obtain ⟨T, rfl, hw⟩ := h
  exact ⟨.group T, rfl, .group .nil hw .nil⟩

theorem atom (h : Reads .atom w e) : Reads .factor w e := by
  obtain ⟨T, rfl, hw⟩ := h
  exact ⟨.atom T, rfl, .atom hw⟩

theorem power {x : Expr} (hv : Reads .atom v e) (hw : Reads .factor w x) :
    Reads .factor (v ++ '^' :: w) (.power e x) := by
  obtain ⟨T, rfl, hv⟩ := hv
  obtain ⟨U, rfl, hw⟩ := hw
  exact ⟨.power T U, rfl, .power hv hw⟩

theorem signed (sign : Sign) (h : Reads .factor w e) :
    Reads .factor (sign.symbol :: w) (.signed sign e) := by
  obtain ⟨T, rfl, hw⟩ := h
  exact ⟨.signed sign T, rfl, .signed .nil hw⟩

theorem call (f : UnaryFunction) (h : Reads .factor w e)
    (hname : ∀ c ∈ w.head?, c.isLower = false) :
    Reads .factor ((Builtin.function f).name.toList ++ w) (.call f e) := by
  obtain ⟨T, rfl, hw⟩ := h
  rw [← f.word_eq]
  exact ⟨.call f T, rfl, .call .nil hw hname⟩

theorem single {level : Level} (h : Reads (.operand level) w e) : Reads (.chain level) w e := by
  obtain ⟨T, rfl, hw⟩ := h
  exact ⟨.single T, rfl, .single hw⟩

theorem binary {x : Expr} (op : Operator) (hv : Reads (.chain op.level) v e)
    (hw : Reads (.operand op.level) w x) :
    Reads (.chain op.level) (v ++ op.symbol :: w) (.binary op e x) := by
  obtain ⟨T, rfl, hv⟩ := hv
  obtain ⟨U, rfl, hw⟩ := hw
  exact ⟨.binary op rfl T U, rfl, .binary hv hw⟩

end Reads

end Grammar

end Calculator
