import Calculator.Keypad
import Mathlib.Data.List.DropRight

/-!
# Typing and deleting

Keys that type or delete do the same to every display: they take away some number of characters at
its end and put some text there. Deleting may take away what was typed before, or what was there
from the start, or nothing at all; however typing and deleting are mixed, one number and one text
say what comes of it. This number and this text are the normal form of the keys.

## Main definitions

* `Edit`: a number of characters to take away and a text to put in their place.
* `Edit.apply`, `Edit.andThen`: what an edit does to a text, and two edits made into one.
* `Key.Edits`: the keys that type or delete.
* `Keypad.Does`: keys that do what an edit does, on every keypad.

## Main results

* `Edit.apply_andThen`, `Edit.apply_injective`: one edit for two, and no other one.
* `Keypad.does_append`: keys pressed in two goes.
* `Keypad.exists_does`: typing and deleting has a normal form.
* `Keypad.pressAll_edits`: the normal form is the only one, and how normal forms are put together.
-/

namespace Calculator

/-! ### Edits -/

/-- A change at the end of a text. -/
@[ext]
structure Edit where
  /-- How many characters are taken away. -/
  erased : ℕ
  /-- The text that is put in their place. -/
  typed : List Char
deriving DecidableEq

namespace Edit

variable {e f : Edit} {w : List Char}

/-- The text after an edit. Where there are fewer characters than are to be taken away, all of them
are. -/
def apply (e : Edit) (w : List Char) : List Char :=
  w.rdrop e.erased ++ e.typed

/-- The edit that does what two edits do, one after the other. The second one takes away from what
the first one has put there, and only then from what was there before. -/
def andThen (e f : Edit) : Edit :=
  ⟨e.erased + (f.erased - e.typed.length), e.typed.rdrop f.erased ++ f.typed⟩

/-- Characters are taken away from the second part of a text before they are from the first. -/
theorem rdrop_append (v w : List Char) (n : ℕ) :
    (v ++ w).rdrop n = v.rdrop (n - w.length) ++ w.rdrop n := by
  rw [List.rdrop_eq_reverse_drop_reverse, List.reverse_append, List.drop_append,
    List.reverse_append, List.length_reverse, ← List.rdrop_eq_reverse_drop_reverse,
    ← List.rdrop_eq_reverse_drop_reverse]

theorem rdrop_rdrop (w : List Char) (m n : ℕ) : (w.rdrop m).rdrop n = w.rdrop (m + n) := by
  rw [List.rdrop_eq_reverse_drop_reverse, List.rdrop_eq_reverse_drop_reverse, List.reverse_reverse,
    List.drop_drop, ← List.rdrop_eq_reverse_drop_reverse]

theorem apply_andThen (e f : Edit) (w : List Char) :
    (e.andThen f).apply w = f.apply (e.apply w) := by
  rw [apply, apply, apply, rdrop_append, rdrop_rdrop, andThen, List.append_assoc]

/-- Different edits differ on some text. -/
theorem apply_injective : Function.Injective apply := by
  intro e f h
  have htyped : e.typed = f.typed := by
    have hnil := congrFun h []
    rwa [apply, apply, List.rdrop_nil, List.rdrop_nil] at hnil
  -- A text that is long enough for both loses as many characters as are taken away.
  have hlong := congrArg List.length (congrFun h (List.replicate (e.erased + f.erased) ' '))
  ext1
  · simp only [apply, htyped, List.rdrop, List.length_append, List.length_take,
      List.length_replicate] at hlong
    omega
  · exact htyped

end Edit

/-- The keys that type or delete. -/
inductive Key.Edits : Key → Prop
  | insert (text : String) : Edits (.insert text)
  | delete : Edits .delete

/-! ### Keys that edit -/

namespace Keypad

variable {keys more : List Key} {key : Key} {e f : Edit}

/-- Pressing the keys does to every display what the edit does, and nothing else. -/
def Does (keys : List Key) (e : Edit) : Prop :=
  ∀ keypad : Keypad, keypad.pressAll keys =
    { keypad with display := String.ofList (e.apply keypad.display.toList) }

theorem does_nil : Does [] ⟨0, []⟩ := by
  intro keypad
  show keypad = _
  rw [Edit.apply, List.rdrop_zero, List.append_nil, String.ofList_toList]

/-- Typing puts its text at the end. -/
theorem does_insert (text : String) : Does [.insert text] ⟨0, text.toList⟩ := by
  intro keypad
  show { keypad with display := keypad.display ++ text } = _
  rw [Edit.apply, List.rdrop_zero, String.ofList_append, String.ofList_toList,
    String.ofList_toList]

/-- Deleting takes one character away. -/
theorem does_delete : Does [.delete] ⟨1, []⟩ := by
  intro keypad
  show { keypad with display := String.ofList keypad.display.toList.dropLast } = _
  rw [Edit.apply, List.append_nil, List.rdrop, List.dropLast_eq_take]

/-- Keys pressed in two goes do what both edits do, one after the other. -/
theorem does_append (he : Does keys e) (hf : Does more f) : Does (keys ++ more) (e.andThen f) := by
  intro keypad
  rw [pressAll_append, he, hf, Edit.apply_andThen, String.toList_ofList]

/-- What keys do is done by one edit only. -/
theorem Does.unique (he : Does keys e) (hf : Does keys f) : e = f := by
  apply Edit.apply_injective
  funext w
  -- Every text can be on the display before the keys are pressed.
  have hdisplay :=
    congrArg display ((he ⟨String.ofList w, {}⟩).symm.trans (hf ⟨String.ofList w, {}⟩))
  have hlist : String.ofList (e.apply w) = String.ofList (f.apply w) := by
    simpa using hdisplay
  exact String.ofList_injective hlist

theorem exists_does_of_edits (hkey : key.Edits) : ∃ e, Does [key] e := by
  cases hkey with
  | insert text => exact ⟨_, does_insert text⟩
  | delete => exact ⟨_, does_delete⟩

/-- Typing and deleting does what one edit does. -/
theorem exists_does (hkeys : ∀ key ∈ keys, key.Edits) : ∃ e, Does keys e := by
  induction keys with
  | nil => exact ⟨_, does_nil⟩
  | cons key keys ih =>
    obtain ⟨e, he⟩ := exists_does_of_edits (hkeys key List.mem_cons_self)
    obtain ⟨f, hf⟩ := ih fun key hkey => hkeys key (List.mem_cons_of_mem _ hkey)
    exact ⟨_, does_append he hf⟩

/-- As many characters are taken away as keys for that are pressed. -/
theorem does_replicate_delete (n : ℕ) : Does (List.replicate n .delete) ⟨n, []⟩ := by
  induction n with
  | zero => exact does_nil
  | succ n ih =>
    rw [List.replicate_succ']
    have h := does_append ih does_delete
    rwa [Edit.andThen, List.length_nil, List.rdrop_nil, List.nil_append, Nat.sub_zero] at h

/-- Deleting all that was typed is doing nothing. -/
theorem does_insert_delete (text : String) :
    Does (.insert text :: List.replicate text.length .delete) ⟨0, []⟩ := by
  have h := does_append (does_insert text) (does_replicate_delete text.length)
  rwa [Edit.andThen, ← String.length_toList, Nat.sub_self, List.rdrop, Nat.sub_self,
    List.take_zero, List.append_nil] at h

/-- Typing and deleting does the same to every display and leaves alone how displays are evaluated:
some number of characters is taken away, of which there may be fewer, and some text is typed. The
number and the text are determined by the keys. For keys pressed in two goes they come from those of
both goes: what the second one takes away comes from what the first one has typed, and only then
from the display. So typing a text and deleting it changes nothing. -/
theorem pressAll_edits (hkeys : ∀ key ∈ keys, key.Edits) :
    (∃! e : Edit, ∀ keypad : Keypad, keypad.pressAll keys =
      { keypad with display := String.ofList (keypad.display.toList.rdrop e.erased ++ e.typed) }) ∧
      (∀ more e f, Does keys e → Does more f →
        Does (keys ++ more)
          ⟨e.erased + (f.erased - e.typed.length), e.typed.rdrop f.erased ++ f.typed⟩) ∧
      ∀ (keypad : Keypad) (text : String),
        keypad.pressAll (.insert text :: List.replicate text.length .delete) = keypad := by
  refine ⟨?one, fun more e f he hf => does_append he hf, fun keypad text => ?undone⟩
  case one =>
    obtain ⟨e, he⟩ := exists_does hkeys
    exact ⟨e, he, fun f hf => Does.unique hf he⟩
  case undone =>
    rw [does_insert_delete text keypad]
    exact (does_nil keypad).symm

/-- Three characters are deleted where two have been typed, so one is taken away that was there. -/
theorem pressAll_edits_root :
    (∀ key ∈ [Key.insert "√2"], key.Edits) ∧
      Does ([.insert "√2"] ++ List.replicate 3 .delete) ⟨1, []⟩ := by
  have hkeys : ∀ key ∈ [Key.insert "√2"], key.Edits :=
    List.forall_mem_singleton.mpr (.insert "√2")
  have hlength : "√2".toList.length = 2 := by decide
  have hedit : (⟨0 + (3 - "√2".toList.length), "√2".toList.rdrop 3 ++ []⟩ : Edit) = ⟨1, []⟩ := by
    rw [List.rdrop, hlength]
    rfl
  obtain ⟨-, happend, -⟩ := pressAll_edits hkeys
  rw [← hedit]
  exact ⟨hkeys, happend _ ⟨0, "√2".toList⟩ ⟨3, []⟩ (does_insert "√2") (does_replicate_delete 3)⟩

end Keypad

end Calculator
