import Calculator.CommandLine.Task
import Mathlib.Data.List.Basic

/-!
# Lines of text and lines of bytes

A file is decoded as a whole and then cut into lines; standard input is cut into lines first, and
each line is decoded on its own. Both give the same lines. A line feed takes one byte in UTF-8, and
this byte is part of no other character, so cutting the bytes and cutting the characters come down
to the same, and so it is with a carriage return at the end of a line.

What a line is, is said by a relation between a sequence and its lines (`Cut`), for characters and
bytes alike. Which lines are shown, is said by their characters (`WhiteSpace`). How the words of a
command line are read is left open: all that counts is what they ask for (`Asks`).

## Main definitions

* `WhiteSpace`: the characters that alone make no line worth showing.
* `Lines.Cut`: a sequence and its lines.
* `Lines.utf8`: the bytes of a text.
* `CommandLine.Visible`, `CommandLine.shown`: the lines that are shown, and what is shown for them.
* `CommandLine.Asks`: what a command line asks for.

## Main results

* `Lines.cut_collect`, `Lines.Cut.collect_eq`: every sequence has exactly one list of lines.
* `Lines.Cut.utf8`: the lines of encoded text are the encoded lines.
* `Lines.ofBytes_utf8`, `Lines.exists_ofBytes_eq`: the lines read from bytes that are text, and from
  bytes that are not.
* `CommandLine.run_file_eq_run_standardInput`: a file and standard input that hold the same bytes.
-/

namespace Calculator

/-- Strings made of lists of characters have these as their lists of characters. -/
theorem map_toList_map_ofList (parts : List (List Char)) :
    (parts.map String.ofList).map String.toList = parts := by
  have hid : String.toList ∘ String.ofList = id := funext fun _ => String.toList_ofList
  rw [List.map_map, hid, List.map_id]

theorem map_toList_injective : Function.Injective (List.map String.toList) :=
  List.map_injective_iff.mpr fun _ _ => String.toList_inj.mp

/-! ## White space -/

/-- The characters with the Unicode property White_Space, one by one. -/
def WhiteSpace (c : Char) : Prop :=
  c.toNat ∈ [0x09, 0x0A, 0x0B, 0x0C, 0x0D, 0x20, 0x85, 0xA0, 0x1680, 0x2000, 0x2001, 0x2002, 0x2003,
    0x2004, 0x2005, 0x2006, 0x2007, 0x2008, 0x2009, 0x200A, 0x2028, 0x2029, 0x202F, 0x205F, 0x3000]

instance : DecidablePred WhiteSpace :=
  fun c => inferInstanceAs (Decidable (c.toNat ∈ _))

theorem isBlank_iff {c : Char} : isBlank c = true ↔ WhiteSpace c := by
  simp only [isBlank, blankRanges, WhiteSpace, List.any_cons, List.any_nil, Bool.or_eq_true,
    Bool.and_eq_true, Bool.false_eq_true, decide_eq_true_eq, List.mem_cons, List.not_mem_nil,
    or_false]
  omega

namespace Lines

/-! ## Cutting a sequence -/

section Cut

variable {α : Type} {lineFeed carriageReturn : α} {line xs ys : List α} {lines : List (List α)}

/-- The lines of a sequence. A line ends with a line feed, or with a carriage return and a line
feed. What follows the last line feed is a line if there is anything, and it is kept as it is. -/
inductive Cut (lineFeed carriageReturn : α) : List α → List (List α) → Prop
  | nil : Cut lineFeed carriageReturn [] []
  | last {line : List α} (hne : line ≠ []) (hline : lineFeed ∉ line) :
      Cut lineFeed carriageReturn line [line]
  | lineFeed {line rest : List α} {lines : List (List α)} (hline : lineFeed ∉ line)
      (hlast : line.getLast? ≠ some carriageReturn)
      (hrest : Cut lineFeed carriageReturn rest lines) :
      Cut lineFeed carriageReturn (line ++ lineFeed :: rest) (line :: lines)
  | carriageReturn {line rest : List α} {lines : List (List α)} (hline : lineFeed ∉ line)
      (hrest : Cut lineFeed carriageReturn rest lines) :
      Cut lineFeed carriageReturn (line ++ carriageReturn :: lineFeed :: rest) (line :: lines)

/-- A sequence that ends with a line feed and another one behind it have their lines one behind the
other. -/
theorem Cut.append (h : Cut lineFeed carriageReturn xs lines)
    (hend : xs = [] ∨ xs.getLast? = some lineFeed) {lines' : List (List α)}
    (h' : Cut lineFeed carriageReturn ys lines') :
    Cut lineFeed carriageReturn (xs ++ ys) (lines ++ lines') := by
  -- What is behind the first line feed ends with a line feed too, if there is anything.
  have hbehind : ∀ line rest : List α, (line ++ lineFeed :: rest).getLast? = some lineFeed →
      rest = [] ∨ rest.getLast? = some lineFeed := by
    intro line rest hlast
    rcases List.eq_nil_or_concat rest with rfl | ⟨rest, x, rfl⟩
    · exact Or.inl rfl
    · rw [List.concat_eq_append] at hlast ⊢
      rw [List.append_cons, ← List.append_assoc, List.getLast?_concat] at hlast
      exact Or.inr (by rw [List.getLast?_concat, hlast])
  induction h with
  | nil => exact h'
  | last hne hline =>
    rcases hend with rfl | hlast
    · exact absurd rfl hne
    · exact absurd (List.mem_of_getLast? hlast) hline
  | lineFeed hline hlast _ ih =>
    rw [List.append_assoc]
    exact .lineFeed hline hlast (ih (hbehind _ _ (hend.resolve_left (by simp))))
  | carriageReturn hline _ ih =>
    have hlast := hend.resolve_left (by simp)
    rw [List.append_cons] at hlast
    rw [List.append_assoc]
    exact .carriageReturn hline (ih (hbehind _ _ hlast))

variable [DecidableEq α]

/-- What is read in front of a line feed belongs to the first line. -/
theorem collect_append (hline : lineFeed ∉ line) (read : List α) :
    collect lineFeed carriageReturn read (line ++ xs) =
      collect lineFeed carriageReturn (line.reverse ++ read) xs := by
  induction line generalizing read with
  | nil => rfl
  | cons x line ih =>
    obtain ⟨hx, hline⟩ := not_or.mp (List.mem_cons.not.mp hline)
    rw [List.cons_append, collect, if_neg (Ne.symm hx), ih hline, List.reverse_cons,
      List.append_assoc, List.singleton_append]

/-- A line feed ends the first line. -/
theorem collect_line (hline : lineFeed ∉ line) :
    collect lineFeed carriageReturn [] (line ++ lineFeed :: xs) =
      finish carriageReturn line.reverse :: collect lineFeed carriageReturn [] xs := by
  rw [collect_append hline, List.append_nil, collect, if_pos rfl]

theorem collect_last (hne : line ≠ []) (hline : lineFeed ∉ line) :
    collect lineFeed carriageReturn [] line = [line] := by
  have h : collect lineFeed carriageReturn [] (line ++ []) = _ := collect_append hline []
  rw [List.append_nil, List.append_nil] at h
  rw [h, collect, if_neg (by simpa using hne), List.reverse_reverse]

theorem finish_concat (line : List α) :
    finish carriageReturn (line ++ [carriageReturn]).reverse = line := by
  rw [List.reverse_append, List.reverse_singleton, List.singleton_append, finish, if_pos rfl,
    List.reverse_reverse]

theorem finish_of_getLast? (h : line.getLast? ≠ some carriageReturn) :
    finish carriageReturn line.reverse = line := by
  rcases List.eq_nil_or_concat line with rfl | ⟨line, x, rfl⟩
  · rfl
  · have hx : x ≠ carriageReturn := by
      rintro rfl
      simp at h
    rw [List.concat_eq_append, List.reverse_append, List.reverse_singleton, List.singleton_append,
      finish, if_neg hx, List.reverse_cons, List.reverse_reverse]

/-- There is only one way to cut a sequence. -/
theorem Cut.collect_eq (hends : lineFeed ≠ carriageReturn)
    (h : Cut lineFeed carriageReturn xs lines) :
    collect lineFeed carriageReturn [] xs = lines := by
  induction h with
  | nil => rfl
  | last hline hmem => exact collect_last hline hmem
  | lineFeed hline hlast _ ih => rw [collect_line hline, finish_of_getLast? hlast, ih]
  | @carriageReturn line rest _ hline _ ih =>
    have hmem : lineFeed ∉ line ++ [carriageReturn] := by simp [hline, hends]
    rw [List.append_cons, collect_line hmem, finish_concat, ih]

/-- Every sequence can be cut. -/
theorem cut_collect (xs : List α) :
    Cut lineFeed carriageReturn xs (collect lineFeed carriageReturn [] xs) := by
  induction hlength : xs.length using Nat.strongRecOn generalizing xs with
  | ind n ih =>
    subst hlength
    by_cases hmem : lineFeed ∈ xs
    · obtain ⟨line, rest, rfl, hline⟩ := List.eq_append_cons_of_mem hmem
      have hrest := ih rest.length (by simp; omega) rest rfl
      rw [collect_line hline]
      by_cases hlast : line.getLast? = some carriageReturn
      · obtain ⟨line, rfl⟩ := List.getLast?_eq_some_iff.mp hlast
        rw [finish_concat, List.append_assoc, List.singleton_append]
        exact .carriageReturn (fun h => hline (List.mem_append_left _ h)) hrest
      · rw [finish_of_getLast? hlast]
        exact .lineFeed hline hlast hrest
    · by_cases hxs : xs = []
      · subst hxs
        exact .nil
      · rw [collect_last hxs hmem]
        exact .last hxs hmem

/-- Only one carriage return belongs to the end of a line, and only in front of a line feed. -/
example : collect '\n' '\r' [] "1\r\r\n\r2\n\n3\r".toList =
    ["1\r".toList, "\r2".toList, [], "3\r".toList] := by decide

end Cut

/-! ## Text in UTF-8 -/

/-- The bytes of a text. -/
def utf8 (w : List Char) : List UInt8 :=
  w.flatMap String.utf8EncodeChar

@[simp]
theorem utf8_nil : utf8 [] = [] := rfl

@[simp]
theorem utf8_append (v w : List Char) : utf8 (v ++ w) = utf8 v ++ utf8 w :=
  List.flatMap_append

/-- Bytes are decoded exactly if they are those of a text, to that text. -/
theorem decode?_eq_some_iff {bytes : List UInt8} {text : String} :
    decode? bytes = some text ↔ bytes = utf8 text.toList := by
  have htext : text.toByteArray = (utf8 text.toList).toByteArray := by
    rw [utf8, ← List.utf8Encode, ← String.toByteArray_ofList, String.ofList_toList]
  have hdecode : decode? bytes = some text ↔ (⟨bytes.toArray⟩ : ByteArray) = text.toByteArray := by
    rw [decode?, String.fromUTF8?]
    split
    · rw [Option.some.injEq, ← String.toByteArray_inj]
      rfl
    next hvalid =>
      refine ⟨nofun, fun h => absurd ?_ hvalid⟩
      rw [h]
      exact text.isValidUTF8
  rw [hdecode, htext, ByteArray.ext_iff, List.data_toByteArray]
  exact ⟨List.toArray_inj, congrArg List.toArray⟩

@[simp]
theorem decode?_utf8 (text : String) : decode? (utf8 text.toList) = some text :=
  decode?_eq_some_iff.mpr rfl

theorem decode?_eq_none_iff {bytes : List UInt8} :
    decode? bytes = none ↔ ∀ text : String, bytes ≠ utf8 text.toList := by
  rw [Option.eq_none_iff_forall_ne_some]
  exact forall_congr' fun text => not_congr decode?_eq_some_iff

/-- A byte below 128 is a character of its own. -/
theorem toNat_eq_of_mem_utf8EncodeChar {c : Char} {b : UInt8} (h : b ∈ String.utf8EncodeChar c)
    (hb : b.toNat < 128) : c.toNat = b.toNat := by
  have hbyte : ∀ n : Nat, (UInt8.ofNat n).toNat = n % 256 := fun n => by simp
  have hc : c.toNat = c.val.toNat := rfl
  rw [String.utf8EncodeChar.eq_1] at h
  split_ifs at h <;> simp only [List.mem_cons, List.not_mem_nil, or_false] at h
  · subst h
    rw [hbyte]
    omega
  -- All bytes of a longer encoding have their highest bit set.
  all_goals
    rcases h with rfl | rfl | rfl | rfl <;> rw [hbyte] at hb <;> omega

section Ascii

variable {c : Char} {b : UInt8} {w : List Char}

theorem eq_of_mem_utf8EncodeChar {d : Char} (hb : b.toNat < 128) (hc : c.toNat = b.toNat)
    (h : b ∈ String.utf8EncodeChar d) : d = c :=
  Char.toNat_inj.mp ((toNat_eq_of_mem_utf8EncodeChar h hb).trans hc.symm)

theorem mem_of_mem_utf8 (hb : b.toNat < 128) (hc : c.toNat = b.toNat) (h : b ∈ utf8 w) : c ∈ w := by
  obtain ⟨d, hd, hmem⟩ := List.mem_flatMap.mp h
  rwa [← eq_of_mem_utf8EncodeChar hb hc hmem]

theorem getLast?_of_getLast?_utf8 (hb : b.toNat < 128) (hc : c.toNat = b.toNat)
    (h : (utf8 w).getLast? = some b) : w.getLast? = some c := by
  rcases List.eq_nil_or_concat w with rfl | ⟨w, d, rfl⟩
  · cases h
  · have hlast : utf8 [d] = String.utf8EncodeChar d := by simp [utf8]
    have hne : String.utf8EncodeChar d ≠ [] := String.utf8EncodeChar_ne_nil
    rw [List.concat_eq_append, utf8_append, hlast, List.getLast?_append,
      List.getLast?_eq_some_getLast hne, Option.some_or] at h
    obtain rfl := Option.some.inj h
    rw [List.concat_eq_append, List.getLast?_concat,
      eq_of_mem_utf8EncodeChar hb hc (List.getLast_mem hne)]

theorem utf8_ne_nil (h : w ≠ []) : utf8 w ≠ [] := by
  obtain ⟨d, hd⟩ := List.exists_mem_of_ne_nil w h
  obtain ⟨x, hx⟩ := List.exists_mem_of_ne_nil _ (String.utf8EncodeChar_ne_nil (c := d))
  exact List.ne_nil_of_mem (List.mem_flatMap.mpr ⟨d, hd, hx⟩)

end Ascii

/-! ## Lines of bytes -/

/-- The lines of encoded text are the encoded lines. -/
theorem Cut.utf8 {w : List Char} {lines : List (List Char)} (h : Cut '\n' '\r' w lines) :
    Cut 10 13 (utf8 w) (lines.map Lines.utf8) := by
  have hmem : ∀ {line : List Char}, '\n' ∉ line → (10 : UInt8) ∉ Lines.utf8 line :=
    fun hline hten => hline (mem_of_mem_utf8 (by decide) rfl hten)
  induction h with
  | nil => exact .nil
  | last hne hline => exact .last (utf8_ne_nil hne) (hmem hline)
  | lineFeed hline hlast _ ih =>
    rw [utf8_append]
    exact .lineFeed (hmem hline)
      (fun h => hlast (getLast?_of_getLast?_utf8 (by decide) rfl h)) ih
  | carriageReturn hline _ ih =>
    rw [utf8_append]
    exact .carriageReturn (hmem hline) ih

/-- What is cut into encoded lines is encoded text. -/
theorem Cut.exists_utf8 {bytes : List UInt8} {lines : List (List UInt8)} (h : Cut 10 13 bytes lines)
    (hlines : ∀ line ∈ lines, ∃ text : String, line = Lines.utf8 text.toList) :
    ∃ text : String, bytes = Lines.utf8 text.toList := by
  induction h with
  | nil => exact ⟨"", rfl⟩
  | last => exact hlines _ List.mem_cons_self
  | lineFeed _ _ _ ih =>
    obtain ⟨text, rfl⟩ := hlines _ List.mem_cons_self
    obtain ⟨rest, rfl⟩ := ih fun line hline => hlines line (List.mem_cons_of_mem _ hline)
    refine ⟨text ++ "\n" ++ rest, ?_⟩
    rw [String.toList_append, String.toList_append, utf8_append, utf8_append, List.append_assoc]
    rfl
  | carriageReturn _ _ ih =>
    obtain ⟨text, rfl⟩ := hlines _ List.mem_cons_self
    obtain ⟨rest, rfl⟩ := ih fun line hline => hlines line (List.mem_cons_of_mem _ hline)
    refine ⟨text ++ "\r\n" ++ rest, ?_⟩
    rw [String.toList_append, String.toList_append, utf8_append, utf8_append, List.append_assoc]
    rfl

/-- Encoded lines are decoded, up to the first line that is no text. -/
theorem decodeWhile_append (lines : List String) (behind : List (List UInt8)) :
    decodeWhile (lines.map (fun line => utf8 line.toList) ++ behind) =
      lines ++ decodeWhile behind := by
  induction lines with
  | nil => rfl
  | cons line lines ih =>
    rw [List.map_cons, List.cons_append, decodeWhile, decode?_utf8, ih]
    rfl

/-- Lines of bytes are all text, or there is a first one that is not. -/
theorem exists_utf8_or_exists_bad (lines : List (List UInt8)) :
    (∀ line ∈ lines, ∃ text : String, line = utf8 text.toList) ∨
      ∃ (good : List String) (bad : List UInt8) (rest : List (List UInt8)),
        lines = good.map (fun line => utf8 line.toList) ++ bad :: rest ∧ decode? bad = none := by
  induction lines with
  | nil => exact Or.inl (by simp)
  | cons line lines ih =>
    by_cases hline : ∃ text : String, line = utf8 text.toList
    · rcases ih with hall | ⟨good, bad, rest, rfl, hbad⟩
      · exact Or.inl (List.forall_mem_cons.mpr ⟨hline, hall⟩)
      · obtain ⟨text, rfl⟩ := hline
        exact Or.inr ⟨text :: good, bad, rest, rfl, hbad⟩
    · exact Or.inr ⟨[], line, lines, rfl, decode?_eq_none_iff.mpr fun w h => hline ⟨w, h⟩⟩

/-- The lines of a text, as they are cut. -/
theorem cut_ofText (text : String) :
    Cut '\n' '\r' text.toList ((ofText text).map String.toList) := by
  rw [ofText, map_toList_map_ofList]
  exact cut_collect _

/-- The lines read from encoded text are those of the text. -/
theorem ofBytes_utf8 (text : String) : ofBytes (utf8 text.toList) = ofText text := by
  have hcut := (cut_ofText text).utf8
  have hlines := decodeWhile_append (ofText text) []
  rw [List.append_nil, decodeWhile, List.append_nil] at hlines
  rw [ofBytes, hcut.collect_eq (by decide), List.map_map]
  exact hlines

/-- The lines read from bytes that are no text are those in front of the first one that is none. -/
theorem exists_ofBytes_eq {bytes : List UInt8} (h : decode? bytes = none) :
    ∃ (good : List String) (bad : List UInt8) (rest : List (List UInt8)),
      Cut 10 13 bytes (good.map (fun line => utf8 line.toList) ++ bad :: rest) ∧
        decode? bad = none ∧ ofBytes bytes = good := by
  have hcut : Cut 10 13 bytes (collect 10 13 [] bytes) := cut_collect bytes
  rcases exists_utf8_or_exists_bad (collect 10 13 [] bytes) with
    hall | ⟨good, bad, rest, hlines, hbad⟩
  · obtain ⟨text, htext⟩ := hcut.exists_utf8 hall
    exact absurd htext (decode?_eq_none_iff.mp h text)
  · rw [hlines] at hcut
    refine ⟨good, bad, rest, hcut, hbad, ?_⟩
    rw [ofBytes, hlines, decodeWhile_append, decodeWhile, hbad, List.append_nil]

/-- A text that ends with a line feed and another one behind it have their lines one behind the
other. -/
theorem ofText_append {text : String} (hend : text = "" ∨ text.toList.getLast? = some '\n')
    (text' : String) : ofText (text ++ text') = ofText text ++ ofText text' := by
  have hlist : text.toList = [] ∨ text.toList.getLast? = some '\n' :=
    hend.imp_left fun h => by rw [h]; rfl
  have hcut : Cut '\n' '\r' (text.toList ++ text'.toList) _ :=
    (cut_collect text.toList).append hlist (cut_collect text'.toList)
  rw [ofText, String.toList_append, hcut.collect_eq (by decide), List.map_append]
  rfl

end Lines

/-! ## A file and standard input -/

namespace CommandLine

variable {read : Reader} {options : Options} {words words' : List String} {path text : String}
  {task : Task} {input bytes : List UInt8} {files files' : String → Option (List UInt8)}

/-- A line has a character outside of white space. -/
def Visible (line : String) : Prop :=
  ∃ c ∈ line.toList, ¬ WhiteSpace c

instance : DecidablePred Visible :=
  fun line => List.decidableBEx (¬ WhiteSpace ·) line.toList

/-- What is shown for lines: the outcome of each one that has a character outside of white space, on
a line of its own. -/
def shown (options : Options) : List String → String
  | [] => ""
  | line :: lines =>
    if Visible line then
      Display.expression options line ++ "\n" ++ shown options lines
    else shown options lines

theorem shown_append (lines lines' : List String) :
    shown options (lines ++ lines') = shown options lines ++ shown options lines' := by
  induction lines with
  | nil => rw [List.nil_append, shown, String.empty_append]
  | cons line lines ih =>
    rw [List.cons_append, shown, shown, ih]
    split
    · simp only [String.append_assoc]
    · rfl

theorem isBlankText_eq_false_iff {text : String} : isBlankText text = false ↔ Visible text := by
  simp only [isBlankText, List.all_eq_false, isBlank_iff, Visible]

/-- The lines that are evaluated are shown. -/
theorem evaluateLines_eq (options : Options) (lines : List String) :
    evaluateLines options lines = ⟨0, shown options lines, ""⟩ := by
  suffices h : String.join ((lines.filter (!isBlankText ·)).map fun line =>
      Display.expression options line ++ "\n") = shown options lines by
    rw [evaluateLines, h]
  induction lines with
  | nil => rfl
  | cons line lines ih =>
    rw [shown, List.filter_cons]
    by_cases hline : Visible line
    · rw [isBlankText_eq_false_iff.mpr hline, if_pos hline, ← ih]
      exact String.join_cons
    · have hblank : isBlankText line = true := by
        rwa [← isBlankText_eq_false_iff, Bool.not_eq_false] at hline
      rw [hblank, if_neg hline, ← ih]
      rfl

/-- Some words ask for a task with some options, in the way in which they are read. -/
def Asks (read : Reader) (words : List String) (options : Options) (task : Task) : Prop :=
  ∃ a, read words = .ok a ∧ a.options = options ∧ a.task = task

theorem Asks.run_eq (h : Asks read words options task) :
    runWith read words input files = task.perform options input files := by
  obtain ⟨a, hwords, rfl, rfl⟩ := h
  rw [runWith, hwords]

/-- Every limit below `2 ^ 64` can be written. -/
theorem limit?_repr {limit : Nat} (hlimit : limit < Nat.pow 2 64) :
    limit? limit.repr = some limit := by
  have hdigit : ∀ c ∈ Nat.toDigits 10 limit, c.isDigit := fun c hc =>
    Nat.isDigit_of_mem_toDigits (by decide) (by decide) hc
  obtain ⟨c, digits, htext⟩ : ∃ c digits, Nat.toDigits 10 limit = c :: digits :=
    List.exists_cons_of_ne_nil Nat.toDigits_ne_nil
  have hplus : c ≠ '+' := by
    rintro rfl
    have := hdigit '+' (by rw [htext]; exact List.mem_cons_self)
    contradiction
  have hvalue : Nat.ofDigitChars 10 (c :: digits) 0 = limit := by
    rw [← htext, Nat.ofDigitChars_toDigits (by decide) (by decide)]
  rw [htext, ← List.all_eq_true] at hdigit
  rw [limit?, Nat.toList_repr, htext]
  simpa [hplus, hdigit, hvalue] using hlimit

variable {limit : Nat}

/-- A limit in front of other words is taken as the limit. -/
theorem read_limit (hlimit : limit < Nat.pow 2 64) (rest : List String) :
    Reading.read {} ("--max-depth" :: limit.repr :: rest) =
      Reading.read { maxDepth := some limit } rest := by
  have hset : Reading.setMaxDepth {} limit.repr = .ok { maxDepth := some limit } := by
    rw [Reading.setMaxDepth, limit?_repr hlimit]
  rw [Reading.read, if_neg (by decide), if_pos rfl]
  simp only [hset]
  rfl

/-- What is asked for by words behind a limit. -/
theorem asks_of_read {rest : List String} {a : Arguments} (hlimit : limit < Nat.pow 2 64)
    (hread : (Reading.read { maxDepth := some limit } rest).bind Reading.arguments = .ok a) :
    Asks readWords ("--max-depth" :: limit.repr :: rest) a.options a.task := by
  refine ⟨a, ?_, rfl, rfl⟩
  rw [readWords, read_limit hlimit, hread]
  rfl

/-- A file can be asked for with every limit. -/
theorem asks_file (hlimit : limit < Nat.pow 2 64) (path : String) :
    Asks readWords ["--max-depth", limit.repr, "--file", "--", path] ⟨limit⟩ (.file path) :=
  asks_of_read (a := ⟨true, false, limit, some path⟩) hlimit rfl

/-- Keys can be asked for with every limit. -/
theorem asks_keys (hlimit : limit < Nat.pow 2 64) (labels : String) :
    Asks readWords ["--max-depth", limit.repr, "--keys", "--", labels] ⟨limit⟩ (.keys labels) :=
  asks_of_read (a := ⟨false, true, limit, some labels⟩) hlimit rfl

/-- Standard input can be asked for with every limit. -/
theorem asks_standardInput (hlimit : limit < Nat.pow 2 64) :
    Asks readWords ["--max-depth", limit.repr] ⟨limit⟩ .standardInput :=
  asks_of_read (a := ⟨false, false, limit, none⟩) hlimit rfl

/-- The lines of a file are evaluated if it holds text. -/
theorem Asks.run_file (h : Asks read words options (.file path))
    (hbytes : files path = some (Lines.utf8 text.toList)) :
    runWith read words input files = ⟨0, shown options (Lines.ofText text), ""⟩ := by
  rw [h.run_eq, Task.perform, evaluateFile, hbytes, Option.bind_some, Lines.decode?_utf8]
  exact evaluateLines_eq options _

/-- A file that holds anything else is refused. -/
theorem Asks.run_file_of_decode?_eq_none (h : Asks read words options (.file path))
    (hbytes : files path = some bytes) (hdecode : Lines.decode? bytes = none) :
    (runWith read words input files).status = 1 ∧ (runWith read words input files).output = "" := by
  rw [h.run_eq, Task.perform, evaluateFile, hbytes, Option.bind_some, hdecode]
  exact ⟨rfl, rfl⟩

/-- The lines of standard input are evaluated, whatever it holds. -/
theorem Asks.run_standardInput (h : Asks read words options .standardInput) :
    runWith read words input files = ⟨0, shown options (Lines.ofBytes input), ""⟩ := by
  rw [h.run_eq]
  exact evaluateLines_eq options _

/-- A file and standard input that hold the same bytes. If the bytes are text, then both show the
same, the outcomes of the lines of the text. If they are not, then the file is refused, and for
standard input the lines are shown that are in front of the first one that is no text. Text that
ends with a line feed and text behind it are shown one behind the other. -/
theorem run_file_eq_run_standardInput (hfile : Asks read words options (.file path))
    (hinput : Asks read words' options .standardInput) (input : List UInt8)
    (files files' : String → Option (List UInt8)) (hbytes : files path = some bytes) :
    (∀ text : String, bytes = Lines.utf8 text.toList →
      ∃ lines : List String, Lines.Cut '\n' '\r' text.toList (lines.map String.toList) ∧
        (runWith read words input files).status = 0 ∧
        (runWith read words' bytes files').status = 0 ∧
        (runWith read words input files).output = shown options lines ∧
        (runWith read words' bytes files').output = shown options lines) ∧
    ((∀ text : String, bytes ≠ Lines.utf8 text.toList) →
      (runWith read words input files).status = 1 ∧ (runWith read words input files).output = "" ∧
      ∃ (lines : List String) (bad : List UInt8) (rest : List (List UInt8)),
        Lines.Cut 10 13 bytes (lines.map (fun line => Lines.utf8 line.toList) ++ bad :: rest) ∧
        (∀ text : String, bad ≠ Lines.utf8 text.toList) ∧
        (runWith read words' bytes files').status = 0 ∧
        (runWith read words' bytes files').output = shown options lines) ∧
    (∀ text text' : String, bytes = Lines.utf8 (text ++ text').toList →
      (text = "" ∨ text.toList.getLast? = some '\n') →
      (∀ files₁ files₂ : String → Option (List UInt8),
        files₁ path = some (Lines.utf8 text.toList) →
        files₂ path = some (Lines.utf8 text'.toList) →
        (runWith read words input files).output =
          (runWith read words input files₁).output ++ (runWith read words input files₂).output) ∧
      (runWith read words' bytes files').output =
        (runWith read words' (Lines.utf8 text.toList) files').output ++
          (runWith read words' (Lines.utf8 text'.toList) files').output) := by
  refine ⟨?text, ?bad, ?append⟩
  case text =>
    rintro text rfl
    refine ⟨Lines.ofText text, Lines.cut_ofText text, ?_⟩
    rw [hfile.run_file hbytes, hinput.run_standardInput, Lines.ofBytes_utf8]
    exact ⟨rfl, rfl, rfl, rfl⟩
  case bad =>
    intro hbad
    have hdecode : Lines.decode? bytes = none := Lines.decode?_eq_none_iff.mpr hbad
    obtain ⟨hstatus, houtput⟩ := hfile.run_file_of_decode?_eq_none hbytes hdecode
    obtain ⟨lines, bad, rest, hcut, hnone, hlines⟩ := Lines.exists_ofBytes_eq hdecode
    refine ⟨hstatus, houtput, lines, bad, rest, hcut, Lines.decode?_eq_none_iff.mp hnone, ?_⟩
    rw [hinput.run_standardInput, hlines]
    exact ⟨rfl, rfl⟩
  case append =>
    rintro text text' rfl hend
    have hlines := Lines.ofText_append hend text'
    constructor
    · intro files₁ files₂ h₁ h₂
      rw [hfile.run_file hbytes, hfile.run_file h₁, hfile.run_file h₂, hlines, shown_append]
    · rw [hinput.run_standardInput, hinput.run_standardInput, hinput.run_standardInput]
      rw [Lines.ofBytes_utf8, Lines.ofBytes_utf8, Lines.ofBytes_utf8, hlines, shown_append]

/-- Two texts whose lines end in several ways, and bytes with a line that is no text. -/
theorem run_file_eq_run_standardInput_sums :
    (∃ lines : List String,
      Lines.Cut '\n' '\r' "1+2\r\n\t\n-(3)\n4\r".toList (lines.map String.toList) ∧
        (run ["--max-depth", "2", "--file", "--", "sums"] []
          fun _ => some (Lines.utf8 "1+2\r\n\t\n-(3)\n4\r".toList)).output = shown ⟨2⟩ lines) ∧
      (run ["--max-depth", "2"] (Lines.utf8 "1+2\r\n\t\n-(3)\n4\r".toList) fun _ => none).output =
        (run ["--max-depth", "2"] (Lines.utf8 "1+2\r\n".toList) fun _ => none).output ++
          (run ["--max-depth", "2"] (Lines.utf8 "\t\n-(3)\n4\r".toList) fun _ => none).output ∧
      (run ["--max-depth", "2", "--file", "--", "sums"] []
        fun _ => some [49, 10, 0xFF, 10, 50]).status = 1 ∧
      (run ["--max-depth", "2"] [49, 10, 0xFF, 10, 50] fun _ => none).status = 0 := by
  have hlimit : 2 < Nat.pow 2 64 := by decide
  have hfile : Asks readWords ["--max-depth", "2", "--file", "--", "sums"] ⟨2⟩ (.file "sums") :=
    asks_file hlimit "sums"
  have hinput : Asks readWords ["--max-depth", "2"] ⟨2⟩ .standardInput := asks_standardInput hlimit
  have hbad : Lines.decode? [49, 10, 0xFF, 10, 50] = none := by decide
  obtain ⟨htext, -, happend⟩ :=
    run_file_eq_run_standardInput hfile hinput []
      (fun _ => some (Lines.utf8 "1+2\r\n\t\n-(3)\n4\r".toList)) (fun _ => none) rfl
  obtain ⟨-, hnone, -⟩ :=
    run_file_eq_run_standardInput hfile hinput [] (fun _ => some [49, 10, 0xFF, 10, 50])
      (fun _ => none) rfl
  obtain ⟨lines, hcut, -, -, houtput, -⟩ := htext _ rfl
  obtain ⟨hstatus, -, _, _, _, -, -, hstatus', -⟩ := hnone (Lines.decode?_eq_none_iff.mp hbad)
  exact ⟨⟨lines, hcut, houtput⟩, (happend "1+2\r\n" "\t\n-(3)\n4\r" rfl (Or.inr rfl)).2, hstatus,
    hstatus'⟩

end CommandLine

end Calculator
