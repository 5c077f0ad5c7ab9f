import Calculator.Proofs.Lines

/-!
# Keys on the command line

A command line that presses keys gives their labels, separated by white space. If every word is the
label of a key, then the display is shown that these keys lead to. Otherwise nothing is shown, and
the first word that is no label is reported, whatever stands in front of it or behind it.

Keys may be looked up before any is pressed or one after the other while they are pressed
(`CommandLine.pressEach`); it comes down to the same, because what has been pressed before an
unknown label is not shown. What the words of a text are, is said by a relation (`Words.Cut`).

## Main definitions

* `Words.Cut`: a text and its words.
* `CommandLine.pressEach`: keys that are pressed while their labels are read.

## Main results

* `words_eq_iff`: every text has exactly one list of words.
* `Key.ofLabel?_eq_none_iff`, `Key.ofLabel?_of_typed`: which labels there are, and what they do.
* `CommandLine.pressLabels_eq`: keys are looked up before they are pressed or in between.
* `CommandLine.run_keys`: what a command line that presses keys leaves behind.
-/

namespace Calculator

/-! ### The words of a text -/

namespace Words

variable {gap word read w : List Char} {words : List (List Char)}

/-- A text and its words: the longest runs of characters that are not white space, in order. -/
inductive Cut : List Char → List (List Char) → Prop
  | gap {gap : List Char} (hgap : ∀ c ∈ gap, WhiteSpace c) : Cut gap []
  | word {gap word rest : List Char} {words : List (List Char)} (hgap : ∀ c ∈ gap, WhiteSpace c)
      (hne : word ≠ []) (hword : ∀ c ∈ word, ¬ WhiteSpace c)
      (hstop : ∀ c ∈ rest.head?, WhiteSpace c) (hrest : Cut rest words) :
      Cut (gap ++ (word ++ rest)) (word :: words)

theorem collect_cons (read : List Char) (c : Char) (w : List Char) :
    collect read (c :: w) =
      if WhiteSpace c then push read (collect [] w) else collect (c :: read) w := by
  simp only [collect, isBlank_iff]

/-- White space in front of a text belongs to no word. -/
theorem Cut.cons_whiteSpace {c : Char} (hc : WhiteSpace c) (h : Cut w words) :
    Cut (c :: w) words := by
  cases h with
  | gap hgap => exact .gap (List.forall_mem_cons.mpr ⟨hc, hgap⟩)
  | word hgap hne hword hstop hrest =>
    exact .word (List.forall_mem_cons.mpr ⟨hc, hgap⟩) hne hword hstop hrest

/-- A word in front of a text that does not continue it, unless it is empty. -/
theorem Cut.push_word (hread : ∀ c ∈ read, ¬ WhiteSpace c) (hstop : ∀ c ∈ w.head?, WhiteSpace c)
    (h : Cut w words) : Cut (read.reverse ++ w) (push read words) := by
  rcases read with _ | ⟨c, read⟩
  · exact h
  · have hnil : ∀ d ∈ ([] : List Char), WhiteSpace d := List.forall_mem_nil _
    exact .word hnil (by simp) (fun d hd => hread d (List.mem_reverse.mp hd)) hstop h

/-- Every text can be cut. What has already been read of the first word belongs to it. -/
theorem cut_collect (read w : List Char) (hread : ∀ c ∈ read, ¬ WhiteSpace c) :
    Cut (read.reverse ++ w) (collect read w) := by
  -- What has been read, last character first, is carried along until white space ends the word.
  induction w generalizing read with
  | nil => exact Cut.push_word hread (by simp) (.gap (List.forall_mem_nil _))
  | cons c w ih =>
    rw [collect_cons]
    split_ifs with hc
    · have hrest : Cut w (collect [] w) := ih [] (List.forall_mem_nil _)
      exact Cut.push_word hread (by simp [hc]) (hrest.cons_whiteSpace hc)
    · have h := ih (c :: read) (List.forall_mem_cons.mpr ⟨hc, hread⟩)
      rwa [List.reverse_cons, List.append_assoc] at h

/-- White space in front of the first word is passed over. -/
theorem collect_gap (hgap : ∀ c ∈ gap, WhiteSpace c) (w : List Char) :
    collect [] (gap ++ w) = collect [] w := by
  induction gap with
  | nil => rfl
  | cons c gap ih =>
    obtain ⟨hc, hgap⟩ := List.forall_mem_cons.mp hgap
    rw [List.cons_append, collect_cons, if_pos hc]
    exact ih hgap

/-- What is read without white space belongs to the first word. -/
theorem collect_word (hword : ∀ c ∈ word, ¬ WhiteSpace c) (read w : List Char) :
    collect read (word ++ w) = collect (word.reverse ++ read) w := by
  induction word generalizing read with
  | nil => rfl
  | cons c word ih =>
    obtain ⟨hc, hword⟩ := List.forall_mem_cons.mp hword
    rw [List.cons_append, collect_cons, if_neg hc, ih hword, List.reverse_cons, List.append_assoc,
      List.singleton_append]

/-- There is only one way to cut a text. -/
theorem Cut.collect_eq (h : Cut w words) : collect [] w = words := by
  induction h with
  | @gap gap hgap =>
    have h := collect_gap hgap []
    rwa [List.append_nil] at h
  | @word gap word rest words hgap hne hword hstop _ ih =>
    rw [collect_gap hgap, collect_word hword, List.append_nil]
    have hpush : push word.reverse words = word :: words := by
      rw [push, if_neg (by simpa using hne), List.reverse_reverse]
    -- The word ends with the text or at white space, which the rest then begins with.
    rcases rest with _ | ⟨c, rest⟩
    · obtain rfl : [] = words := ih
      exact hpush
    · have hc : WhiteSpace c := hstop c rfl
      rw [collect_cons, if_pos hc] at ih ⊢
      obtain rfl : collect [] rest = words := ih
      exact hpush

end Words

/-- The words of a text are the only way to cut it. -/
theorem words_eq_iff {text : String} {parts : List (List Char)} :
    (words text).map String.toList = parts ↔ Words.Cut text.toList parts := by
  rw [words, map_toList_map_ofList]
  constructor
  · rintro rfl
    exact Words.cut_collect [] text.toList (List.forall_mem_nil _)
  · exact Words.Cut.collect_eq

/-- No-break and ideographic spaces separate words, a zero-width space does not. -/
example : words "\t1\u00a0+\u2003\u200b2\u3000=\n" = ["1", "+", "\u200b2", "="] := by
  decide +kernel

/-! ### Labels -/

namespace Key

variable {label : String}

/-- The words that no key has for its label are those outside of the list of labels. -/
theorem ofLabel?_eq_none_iff : ofLabel? label = none ↔ label ∉ labels := by
  rw [ofLabel?]
  split_ifs with hclear hdelete hequals hmem
  · subst hclear
    exact iff_of_false nofun (by decide)
  · subst hdelete
    exact iff_of_false nofun (by decide)
  · subst hequals
    exact iff_of_false nofun (by decide)
  · exact iff_of_false nofun (not_not.mpr hmem)
  · exact iff_of_true rfl hmem

/-- All labels but three type themselves. -/
theorem ofLabel?_of_typed (hmem : label ∈ labels) (htyped : label ∉ ["C", "DEL", "="]) :
    ofLabel? label = some (.insert label) := by
  simp only [List.mem_cons, List.not_mem_nil, or_false, not_or] at htyped
  obtain ⟨hclear, hdelete, hequals⟩ := htyped
  rw [ofLabel?, if_neg hclear, if_neg hdelete, if_neg hequals, if_pos hmem]

/-- Every label is that of a key. -/
theorem exists_ofLabel?_of_mem (hmem : label ∈ labels) : ∃ key, ofLabel? label = some key := by
  rw [← Option.ne_none_iff_exists', Ne, ofLabel?_eq_none_iff, not_not]
  exact hmem

/-- Labels of keys are labels of some sequence of keys. -/
theorem exists_ofLabels {words : List String} (hwords : ∀ label ∈ words, label ∈ labels) :
    ∃ keys : List Key, words.map ofLabel? = keys.map some := by
  induction words with
  | nil => exact ⟨[], rfl⟩
  | cons label words ih =>
    obtain ⟨key, hkey⟩ := exists_ofLabel?_of_mem (hwords label List.mem_cons_self)
    obtain ⟨keys, hkeys⟩ := ih fun label hlabel => hwords label (List.mem_cons_of_mem _ hlabel)
    exact ⟨key :: keys, by rw [List.map_cons, List.map_cons, hkey, hkeys]⟩

end Key

/-- Typing puts the texts on the display, one behind the other. -/
theorem Keypad.pressAll_insert (keypad : Keypad) (texts : List String) :
    keypad.pressAll (texts.map .insert) =
      { keypad with display := keypad.display ++ String.join texts } := by
  induction texts generalizing keypad with
  | nil =>
    show keypad = { keypad with display := keypad.display ++ "" }
    rw [String.append_empty]
  | cons text texts ih =>
    show (keypad.press (.insert text)).pressAll (texts.map .insert) = _
    rw [ih, press, String.join_cons, String.append_assoc]

namespace CommandLine

/-! ### Keys and their labels -/

variable {keypad : Keypad} {options : Options} {labels known rest : List String} {unknown : String}
  {keys : List Key}

/-- Press the keys with some labels, one after the other, up to the first label that no key has. -/
def pressEach (keypad : Keypad) : List String → Except String Keypad
  | [] => .ok keypad
  | label :: labels =>
    match Key.ofLabel? label with
    | some key => pressEach (keypad.press key) labels
    | none => .error label

/-- Labels of keys press these keys. -/
theorem pressEach_append (h : known.map Key.ofLabel? = keys.map some) (keypad : Keypad)
    (rest : List String) :
    pressEach keypad (known ++ rest) = pressEach (keypad.pressAll keys) rest := by
  induction known generalizing keypad keys with
  | nil =>
    obtain rfl : keys = [] := by simpa using h.symm
    rfl
  | cons label known ih =>
    rcases keys with _ | ⟨key, keys⟩
    · cases h
    · obtain ⟨hkey, hkeys⟩ := List.cons.inj h
      rw [List.cons_append, pressEach, hkey]
      exact ih hkeys (keypad.press key)

/-- Keys are looked up before they are pressed, or in between. -/
theorem pressEach_eq (keypad : Keypad) (labels : List String) :
    pressEach keypad labels = (keysOf labels).map keypad.pressAll := by
  induction labels generalizing keypad with
  | nil => rfl
  | cons label labels ih =>
    rw [pressEach, keysOf]
    cases Key.ofLabel? label with
    | none => rfl
    | some key =>
      show pressEach (keypad.press key) labels = _
      rw [ih]
      cases keysOf labels <;> rfl

/-- The display is shown once all keys have been pressed. -/
theorem pressLabels_eq (options : Options) (text : String) :
    pressLabels options text =
      match pressEach { options } (words text) with
      | .ok keypad => .shown keypad.display
      | .error label => .refused ("Unknown key '" ++ label ++ "'.") := by
  rw [pressLabels, pressEach_eq]
  cases keysOf (words text) <;> rfl

/-- Keys are shown by the display that they lead to. -/
theorem pressLabels_of_keys {text : String}
    (hkeys : (words text).map Key.ofLabel? = keys.map some) :
    pressLabels options text = .shown (({ options } : Keypad).pressAll keys).display := by
  have h := pressEach_append hkeys { options } []
  rw [List.append_nil] at h
  rw [pressLabels_eq, h, pressEach]

/-- Nothing is shown where a word is no label, even if keys have been pressed before. -/
theorem pressLabels_of_unknown {text : String} (hwords : words text = known ++ unknown :: rest)
    (hknown : ∀ label ∈ known, label ∈ Key.labels) (hunknown : unknown ∉ Key.labels) :
    pressLabels options text = .refused ("Unknown key '" ++ unknown ++ "'.") := by
  obtain ⟨keys, hkeys⟩ := Key.exists_ofLabels hknown
  rw [pressLabels_eq, hwords, pressEach_append hkeys, pressEach,
    Key.ofLabel?_eq_none_iff.mpr hunknown]

/-- Labels that type themselves and are evaluated in the end. -/
theorem pressLabels_of_typed {text : String} (hwords : words text = known ++ ["="])
    (hknown : ∀ label ∈ known, label ∈ Key.labels ∧ label ∉ ["C", "DEL", "="]) :
    pressLabels options text = .shown (Display.expression options (String.join known)) := by
  have hkeys : (words text).map Key.ofLabel? =
      (known.map Key.insert ++ [Key.equals]).map some := by
    rw [hwords, List.map_append, List.map_append, List.map_map]
    refine congrArg₂ _ (List.map_congr_left fun label hlabel => ?_) rfl
    obtain ⟨hmem, htyped⟩ := hknown label hlabel
    exact Key.ofLabel?_of_typed hmem htyped
  rw [pressLabels_of_keys hkeys, Keypad.pressAll_append, Keypad.pressAll_insert]
  show Result.shown (Display.expression options ("" ++ String.join known)) = _
  rw [String.empty_append]

/-- Among words that are not all labels there is a first one that is none. -/
theorem exists_unknown (h : ∃ label ∈ labels, label ∉ Key.labels) :
    ∃ known unknown rest, labels = known ++ unknown :: rest ∧
      (∀ label ∈ known, label ∈ Key.labels) ∧ unknown ∉ Key.labels := by
  obtain ⟨unknown, hfind⟩ := Option.isSome_iff_exists.mp
    (List.find?_isSome (p := fun label => decide (label ∉ Key.labels)) |>.mpr (by simpa using h))
  obtain ⟨hunknown, known, rest, hlabels, hknown⟩ := List.find?_eq_some_iff_append.mp hfind
  exact ⟨known, unknown, rest, hlabels, by simpa using hknown, by simpa using hunknown⟩

/-! ### The command line -/

/-- A command line that presses keys takes the words of its content for their labels. If every word
is a label, then the display is shown that these keys lead to on a new keypad. If some word is none,
then nothing is shown, and the first such word is reported, whatever stands in front of it or behind
it. So only the words matter, and labels that type themselves, with that of the key that evaluates
behind them, show the outcome of what they type. -/
theorem run_keys {read : Reader} {args : List String} {text : String}
    (h : Asks read args options (.keys text))
    (input : List UInt8) (files : String → Option (List UInt8)) :
    ∃ labels : List String,
      (∀ parts, Words.Cut text.toList parts ↔ labels.map String.toList = parts) ∧
      ((∀ label ∈ labels, label ∈ Key.labels) →
        ∃ keys : List Key, labels.map Key.ofLabel? = keys.map some ∧
          runWith read args input files =
            ⟨0, (({ options } : Keypad).pressAll keys).display ++ "\n", ""⟩) ∧
      ((∃ label ∈ labels, label ∉ Key.labels) →
        ∃ known unknown rest, labels = known ++ unknown :: rest ∧
          (∀ label ∈ known, label ∈ Key.labels) ∧ unknown ∉ Key.labels ∧
          runWith read args input files = ⟨1, "", "Unknown key '" ++ unknown ++ "'." ++ "\n"⟩) ∧
      (∀ typed, labels = typed ++ ["="] →
        (∀ label ∈ typed, label ∈ Key.labels ∧ label ∉ ["C", "DEL", "="]) →
          runWith read args input files =
            ⟨0, Display.expression options (String.join typed) ++ "\n", ""⟩) ∧
      ∀ (args' : List String) (text' : String) (input' : List UInt8)
        (files' : String → Option (List UInt8)), Asks read args' options (.keys text') →
        Words.Cut text'.toList (labels.map String.toList) →
        runWith read args' input' files' = runWith read args input files := by
  have hrun : runWith read args input files = pressLabels options text := h.run_eq
  refine ⟨words text, fun parts => words_eq_iff.symm, ?keys, ?unknown, ?typed, ?same⟩
  case keys =>
    intro hlabels
    obtain ⟨keys, hkeys⟩ := Key.exists_ofLabels hlabels
    exact ⟨keys, hkeys, hrun.trans (pressLabels_of_keys hkeys)⟩
  case unknown =>
    intro hlabels
    obtain ⟨known, unknown, rest, hwords, hknown, hunknown⟩ := exists_unknown hlabels
    exact ⟨known, unknown, rest, hwords, hknown, hunknown,
      hrun.trans (pressLabels_of_unknown hwords hknown hunknown)⟩
  case typed =>
    intro typed hwords htyped
    exact hrun.trans (pressLabels_of_typed hwords htyped)
  case same =>
    intro args' text' input' files' h' hcut
    have hwords : words text' = words text := map_toList_injective (words_eq_iff.mpr hcut)
    rw [hrun, h'.run_eq, Task.perform, pressLabels, pressLabels, hwords]

/-- A sum that is typed and evaluated, and the same keys in front of a word that is no label. -/
theorem run_keys_sum :
    run ["--max-depth", "2", "--keys", "--", "1 +\u20032\t="] [] (fun _ => none) =
        ⟨0, "3.0\n", ""⟩ ∧
      (run ["--max-depth", "2", "--keys", "--", "1 + 2 = x C"] [] fun _ => none).status = 1 ∧
      (run ["--max-depth", "2", "--keys", "--", "1 + 2 = x C"] [] fun _ => none).output = "" := by
  have hlimit : 2 < Nat.pow 2 64 := by decide
  have hwords : words "1 +\u20032\t=" = ["1", "+", "2"] ++ ["="] := by decide +kernel
  have hwords' : words "1 + 2 = x C" = ["1", "+", "2", "=", "x", "C"] := by decide +kernel
  have hvalue : Display.expression ⟨2⟩ (String.join ["1", "+", "2"]) = "3.0" := by decide +kernel
  obtain ⟨labels, hcut, -, -, htyped, -⟩ :=
    run_keys (asks_keys hlimit "1 +\u20032\t=") [] fun _ => none
  obtain rfl := map_toList_injective ((hcut _).mp (words_eq_iff.mp rfl))
  obtain ⟨labels, hcut', -, hunknown, -, -⟩ :=
    run_keys (asks_keys hlimit "1 + 2 = x C") [] fun _ => none
  obtain rfl := map_toList_injective ((hcut' _).mp (words_eq_iff.mp rfl))
  have hshown := htyped _ hwords (by decide)
  rw [hvalue] at hshown
  obtain ⟨_, _, _, -, -, -, hrefused⟩ := hunknown ⟨"x", by rw [hwords']; decide, by decide⟩
  refine ⟨hshown, ?_, ?_⟩
  · exact (congrArg Result.status hrefused).trans rfl
  · exact (congrArg Result.output hrefused).trans rfl

end CommandLine

end Calculator
