import HingeLoss.Options.Reading

/-!
# HingeLoss.Proofs.Options.Words

Options that are read from words.

1. trimming takes the blanks at the two ends of a text away, and nothing else (`exists_of_trim`,
   `trim_of_blanks`);
2. a text `Spells` a word if it is this word between blanks, up to the case of its letters; blanks
   have no case, so a text that is trimmed and folded comes to the word exactly then
   (`map_trim_eq_iff_spells`);
3. a boolean is read from three words for each value, and a choice from its name, and no other text
   is read (`boolean_eq_ok_iff`, `extension_eq_ok_iff`, `schedule_eq_ok_iff`).
-/

namespace HingeLoss

variable {p : Char → Bool} {cs rest before after : List Char} {text : String}

/-! ## Blanks -/

theorem dropWhile_append_of_neg (hcs : ∀ c ∈ cs, p c = false) (hne : cs ≠ []) :
    (cs ++ rest).dropWhile p = cs ++ rest := by
  obtain ⟨c, cs, rfl⟩ := List.exists_cons_of_ne_nil hne
  rw [List.cons_append, List.dropWhile_cons_of_neg]
  simpa using hcs c List.mem_cons_self

/-- Blanks around a text are passed over. -/
theorem trim_of_blanks (hbefore : ∀ c ∈ before, Text.isBlank c = true)
    (hafter : ∀ c ∈ after, Text.isBlank c = true) (hcs : ∀ c ∈ cs, Text.isBlank c = false)
    (hne : cs ≠ []) (htext : text.toList = before ++ (cs ++ after)) :
    Text.trim text = String.ofList cs := by
  rw [Text.trim, htext, List.dropWhile_append_of_pos hbefore, dropWhile_append_of_neg hcs hne,
    List.reverse_append, List.dropWhile_append_of_pos (by simpa using hafter),
    ← List.append_nil cs.reverse, dropWhile_append_of_neg (by simpa using hcs) (by simpa using hne),
    List.append_nil, List.reverse_reverse]

theorem mem_takeWhile {c : Char} (h : c ∈ cs.takeWhile p) : p c = true :=
  List.all_eq_true.mp List.all_takeWhile c h

/-- Only blanks are taken away. -/
theorem exists_of_trim (text : String) :
    ∃ before after : List Char, (∀ c ∈ before, Text.isBlank c = true) ∧
      (∀ c ∈ after, Text.isBlank c = true) ∧
      text.toList = before ++ ((Text.trim text).toList ++ after) := by
  let back := (text.toList.dropWhile Text.isBlank).reverse
  refine ⟨text.toList.takeWhile Text.isBlank, (back.takeWhile Text.isBlank).reverse,
    fun c hc => mem_takeWhile hc, fun c hc => mem_takeWhile (List.mem_reverse.mp hc), ?_⟩
  have hback : (back.dropWhile Text.isBlank).reverse ++ (back.takeWhile Text.isBlank).reverse =
      text.toList.dropWhile Text.isBlank := by
    rw [← List.reverse_append, List.takeWhile_append_dropWhile, List.reverse_reverse]
  rw [Text.trim, String.toList_ofList, hback, List.takeWhile_append_dropWhile]

/-! ## Words -/

namespace Options

/-- Whether a text is a word between blanks, when its letters are folded. -/
def Spells (fold : Char → Char) (text word : String) : Prop :=
  ∃ before cs after : List Char, (∀ c ∈ before, Text.isBlank c = true) ∧
    (∀ c ∈ after, Text.isBlank c = true) ∧ text.toList = before ++ (cs ++ after) ∧
    cs.map fold = word.toList

/-- A blank is no letter of ASCII. -/
theorem not_letter_of_isBlank {c : Char} (h : Text.isBlank c = true) :
    ¬ (65 ≤ c.val.toNat ∧ c.val.toNat ≤ 90) ∧ ¬ (97 ≤ c.val.toNat ∧ c.val.toNat ≤ 122) := by
  simp [Text.isBlank, Text.blankRanges] at h
  have hval : c.val.toNat = c.toNat := rfl
  omega

theorem toLower_of_isBlank {c : Char} (h : Text.isBlank c = true) : c.toLower = c :=
  dif_neg (not_letter_of_isBlank h).1

theorem toUpper_of_isBlank {c : Char} (h : Text.isBlank c = true) : c.toUpper = c :=
  dif_neg (not_letter_of_isBlank h).2

/-- Whether a word can be told from the blanks around it. -/
def isWord (word : String) : Bool :=
  !word.toList.isEmpty && word.toList.all (!Text.isBlank ·)

theorem isWord_iff {word : String} :
    isWord word = true ↔ word.toList ≠ [] ∧ ∀ c ∈ word.toList, Text.isBlank c = false := by
  simp [isWord]

/-- **Trimming and folding comes to a word exactly if the text spells it**, for a folding that
leaves blanks alone. -/
theorem map_trim_eq_iff_spells {fold : Char → Char} {word : String}
    (hfold : ∀ c, Text.isBlank c = true → fold c = c) (hword : isWord word = true) :
    (Text.trim text).map fold = word ↔ Spells fold text word := by
  obtain ⟨hnonempty, hnoblank⟩ := isWord_iff.mp hword
  rw [← String.toList_inj, String.toList_map]
  constructor
  · intro h
    obtain ⟨before, after, hbefore, hafter, htext⟩ := exists_of_trim text
    exact ⟨before, _, after, hbefore, hafter, htext, h⟩
  · rintro ⟨before, cs, after, hbefore, hafter, htext, hcs⟩
    have hne : cs ≠ [] := by
      rintro rfl
      exact hnonempty hcs.symm
    have hletters : ∀ c ∈ cs, Text.isBlank c = false := by
      intro c hc
      rw [Bool.eq_false_iff]
      intro hblank
      have hmem : fold c ∈ word.toList := hcs ▸ List.mem_map_of_mem hc
      rw [hfold c hblank] at hmem
      exact absurd hblank (Bool.eq_false_iff.mp (hnoblank c hmem))
    rw [trim_of_blanks hbefore hafter hletters hne htext, String.toList_ofList, hcs]

/-! ## Booleans and choices -/

/-- The words that a boolean is read from. -/
def booleanWords : Bool → List String
  | true => ["true", "1", "yes"]
  | false => ["false", "0", "no"]

theorem boolean_eq_ok_iff {b : Bool} :
    boolean text = .ok b ↔ ∃ word ∈ booleanWords b, Spells Char.toLower text word := by
  have hspells : (∃ word ∈ booleanWords b, Spells Char.toLower text word) ↔
      (Text.trim text).toLower ∈ booleanWords b := by
    have hwords : ∀ word ∈ booleanWords b, isWord word = true := by
      cases b <;> decide +kernel
    constructor
    · rintro ⟨word, hmem, h⟩
      have hword : (Text.trim text).toLower = word :=
        (map_trim_eq_iff_spells (fun _ => toLower_of_isBlank) (hwords word hmem)).mpr h
      rwa [hword]
    · intro hmem
      exact ⟨_, hmem, (map_trim_eq_iff_spells (fun _ => toLower_of_isBlank) (hwords _ hmem)).mp rfl⟩
  rw [hspells, boolean]
  generalize (Text.trim text).toLower = t
  cases b <;> grind [booleanWords]

theorem extension_eq_ok_iff {e : Extension} :
    extension text = .ok e ↔ Spells Char.toUpper text e.text := by
  have hword : isWord e.text = true := by cases e <;> decide +kernel
  rw [← map_trim_eq_iff_spells (fun _ => toUpper_of_isBlank) hword, extension]
  change _ ↔ (Text.trim text).toUpper = _
  generalize (Text.trim text).toUpper = t
  cases e <;> grind [Extension.text]

theorem schedule_eq_ok_iff {s : Schedule} :
    schedule text = .ok s ↔ Spells Char.toUpper text s.text := by
  have hword : isWord s.text = true := by cases s <;> decide +kernel
  rw [← map_trim_eq_iff_spells (fun _ => toUpper_of_isBlank) hword, schedule]
  change _ ↔ (Text.trim text).toUpper = _
  generalize (Text.trim text).toUpper = t
  cases s <;> grind [Schedule.text]

end Options

end HingeLoss
