import ExpiringCache.WriteMode

/-!
# Blanks around a name

A trimmed text is what is left of the text between blanks at its start and blanks at its end. A text
names a write mode if nothing but blanks stands around the letters of the name, whether these are
capitals or not; it is parsed as the mode that it names, and as none if it names none.
-/
namespace ExpiringCache

namespace Text

variable {before core after : List Char}

theorem dropWhile_blank_append (hbefore : ∀ c ∈ before, isBlank c = true)
    (hcore : ∀ c ∈ core, isBlank c = false) (ne : core ≠ []) (rest : List Char) :
    (before ++ (core ++ rest)).dropWhile isBlank = core ++ rest := by
  rw [List.dropWhile_append_of_pos hbefore]
  cases core with
  | nil => exact absurd rfl ne
  | cons c others =>
    have hc : ¬ isBlank c = true := by simp [hcore c List.mem_cons_self]
    rw [List.cons_append, List.dropWhile_cons_of_neg hc]

/-- Nothing but the blanks around a text without blanks is taken away. -/
theorem trimChars_append (hbefore : ∀ c ∈ before, isBlank c = true)
    (hcore : ∀ c ∈ core, isBlank c = false) (ne : core ≠ [])
    (hafter : ∀ c ∈ after, isBlank c = true) : trimChars (before ++ core ++ after) = core := by
  have hback : ∀ c ∈ after.reverse, isBlank c = true :=
    fun c hc => hafter c (List.mem_reverse.mp hc)
  have hturned : ∀ c ∈ core.reverse, isBlank c = false :=
    fun c hc => hcore c (List.mem_reverse.mp hc)
  have hlast := dropWhile_blank_append hback hturned (by simpa using ne) []
  rw [List.append_nil] at hlast
  rw [trimChars, List.append_assoc, dropWhile_blank_append hbefore hcore ne, List.reverse_append,
    hlast, List.reverse_reverse]

/-- Nothing but blanks is taken away. -/
theorem exists_eq_append_trimChars (chars : List Char) :
    ∃ before after, (∀ c ∈ before, isBlank c = true) ∧ (∀ c ∈ after, isBlank c = true) ∧
      chars = before ++ trimChars chars ++ after := by
  let rest := chars.dropWhile isBlank
  refine ⟨chars.takeWhile isBlank, (rest.reverse.takeWhile isBlank).reverse, ?_, ?_, ?_⟩
  · exact fun c hc => List.all_eq_true.mp List.all_takeWhile c hc
  · exact fun c hc => List.all_eq_true.mp List.all_takeWhile c (List.mem_reverse.mp hc)
  · have hrest : trimChars chars ++ (rest.reverse.takeWhile isBlank).reverse = rest := by
      rw [trimChars, ← List.reverse_append, List.takeWhile_append_dropWhile, List.reverse_reverse]
    rw [List.append_assoc, hrest]
    exact List.takeWhile_append_dropWhile.symm

/-- A blank is no capital. -/
theorem toLower_of_isBlank {c : Char} (h : isBlank c = true) : c.toLower = c := by
  have hcapital : ¬ (65 ≤ c.toNat ∧ c.toNat ≤ 90) := by
    rintro ⟨low, high⟩
    simp only [isBlank, Bool.or_eq_true, Bool.and_eq_true, decide_eq_true_eq, beq_iff_eq] at h
    omega
  unfold Char.toLower
  rw [dif_neg]
  rintro ⟨low, high⟩
  exact hcapital ⟨UInt32.le_iff_toNat_le.mp low, UInt32.le_iff_toNat_le.mp high⟩

end Text

namespace WriteMode

/-- A text that has the letters of the name of a mode, small or capital, and blanks around them. -/
def IsNamedIn (mode : WriteMode) (text : String) : Prop :=
  ∃ before letters after : List Char, text.toList = before ++ letters ++ after ∧
    (∀ c ∈ before, Text.isBlank c = true) ∧ (∀ c ∈ after, Text.isBlank c = true) ∧
    letters.map Char.toLower = mode.name.toList

theorem isBlank_of_mem_name {mode : WriteMode} {c : Char} (h : c ∈ mode.name.toList) :
    Text.isBlank c = false := by
  have hall : mode.name.toList.all (fun c => !Text.isBlank c) = true := by
    cases mode <;> decide
  simpa using List.all_eq_true.mp hall c h

/-- What is a letter of a name once it is made small is no blank before. -/
theorem isBlank_of_toLower_mem_name {mode : WriteMode} {c : Char}
    (h : c.toLower ∈ mode.name.toList) : Text.isBlank c = false := by
  rw [← Bool.not_eq_true]
  intro hblank
  rw [Text.toLower_of_isBlank hblank] at h
  rw [isBlank_of_mem_name h] at hblank
  cases hblank

theorem parse_eq_ok_iff {text : String} {mode : WriteMode} :
    parse text = .ok mode ↔ mode.IsNamedIn text := by
  have hparse : parse text = .ok mode ↔ Text.lowerAscii (Text.trim text) = mode.name := by
    rw [← ofName?_eq_some_iff, parse]
    split
    next found hfound => rw [hfound, Except.ok.injEq, Option.some.injEq]
    next hnone => simp [hnone]
  rw [hparse, ← String.toList_inj, Text.lowerAscii, String.toList_map, Text.trim,
    String.toList_ofList]
  constructor
  · intro hname
    obtain ⟨before, after, hbefore, hafter, hchars⟩ := Text.exists_eq_append_trimChars text.toList
    exact ⟨before, _, after, hchars, hbefore, hafter, hname⟩
  · rintro ⟨before, letters, after, hchars, hbefore, hafter, hname⟩
    have hletters : ∀ c ∈ letters, Text.isBlank c = false :=
      fun c hc => isBlank_of_toLower_mem_name (hname ▸ List.mem_map_of_mem hc)
    have hne : letters ≠ [] := by
      rintro rfl
      cases mode <;> simp [name] at hname
    rw [hchars, Text.trimChars_append hbefore hletters hne hafter, hname]

/-- A mode is named in its own name. -/
theorem isNamedIn_name (mode : WriteMode) : mode.IsNamedIn mode.name :=
  ⟨[], mode.name.toList, [], by simp, nofun, nofun, by cases mode <;> decide⟩

end WriteMode

end ExpiringCache
