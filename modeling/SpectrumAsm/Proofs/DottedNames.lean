/-
Names with dots.

A reference is written as one text and read as its parts between the dots, in capital letters. The
parts put together again give the text, and every name has no dot or a first part in front of one, so
what is said of a dotted name can be shown part by part (`dotted_induction`).
-/
import SpectrumAsm.Expr

namespace SpectrumAsm

open List Char SymbolRef

/-! ## Capital letters -/

theorem exists_letter {c d : Char} (h : d.val ≤ c.val ∧ c.val ≤ d.val + 25) (hd : d.toNat ≤ 97) :
    ∃ n : Fin 26, c = ofNat (d.toNat + n) := by
  have hlow : d.toNat ≤ c.toNat := UInt32.le_iff_toNat_le.1 h.1
  have hhigh : c.toNat ≤ (d.toNat + 25) % 2 ^ 32 := UInt32.le_iff_toNat_le.1 h.2
  exact ⟨⟨c.toNat - d.toNat, by omega⟩, by rw [Nat.add_sub_cancel' hlow, ofNat_toNat]⟩

theorem toUpper_cases (c : Char) : c.toUpper = c ∨ ∃ n : Fin 26, c = ofNat (97 + n) ∧ c.toUpper = ofNat (65 + n) := by
  by_cases h : 'a'.val ≤ c.val ∧ c.val ≤ 'z'.val
  · obtain ⟨n, hc⟩ := exists_letter h (by decide)
    have hupper : ∀ n : Fin 26, (ofNat (97 + n)).toUpper = ofNat (65 + n) := by decide
    exact .inr ⟨n, hc, hc ▸ hupper n⟩
  · exact .inl (dif_neg h)

theorem toUpper_invariant {α : Type} {f : Char → α}
    (h : ∀ n : Fin 26, f (ofNat (65 + n)) = f (ofNat (97 + n))) (c : Char) : f c.toUpper = f c := by
  rcases toUpper_cases c with hc | ⟨n, hc, hupper⟩
  · rw [hc]
  · rw [hupper, hc]
    exact h n

theorem toUpper_toUpper (c : Char) : c.toUpper.toUpper = c.toUpper := toUpper_invariant (by decide) c

theorem isAlpha_toUpper {c : Char} (h : c.toUpper ≠ c) : c.isAlpha = true ∧ c.toUpper.isAlpha = true := by
  obtain ⟨n, rfl, hupper⟩ := (toUpper_cases c).resolve_left h
  rw [hupper]
  revert n
  decide

theorem toUpper_beq {k : Char} (hk : k.isAlpha = false) (c : Char) : (c.toUpper == k) = (c == k) := by
  by_cases h : c.toUpper = c
  · rw [h]
  · obtain ⟨hsmall, hlarge⟩ := isAlpha_toUpper h
    rw [beq_eq_false_iff_ne.2 (by rintro rfl; simp_all), beq_eq_false_iff_ne.2 (by rintro rfl; simp_all)]

theorem toUpper_eq_iff {k c : Char} (hk : k.isAlpha = false) : c.toUpper = k ↔ c = k := by
  rw [← beq_iff_eq, toUpper_beq hk, beq_iff_eq]

namespace Text

theorem upcase_upcase (s : String) : upcase (upcase s) = upcase s := by
  unfold upcase
  rw [String.toList_ofList, map_map]
  congr 1
  exact map_congr_left fun c _ => toUpper_toUpper c

theorem upcase_append (s t : String) : upcase (s ++ t) = upcase s ++ upcase t := by
  unfold upcase
  rw [String.toList_append, map_append, String.ofList_append]

theorem mem_upcase {k : Char} (hk : k.isAlpha = false) {s : String} : k ∈ (upcase s).toList ↔ k ∈ s.toList := by
  simp [upcase, toUpper_eq_iff hk]

end Text

/-! ## Dotted names -/

theorem splitDots_ne_nil (cs : List Char) : splitDots cs ≠ [] := by
  cases cs with
  | nil => exact cons_ne_nil _ _
  | cons c cs =>
    unfold splitDots
    split
    · exact cons_ne_nil _ _
    · split <;> exact cons_ne_nil _ _

theorem splitDots_dot (cs : List Char) : splitDots ('.' :: cs) = [] :: splitDots cs := by
  conv => lhs; unfold splitDots
  split
  · next h => exact absurd h (splitDots_ne_nil cs)
  · next h => rw [h]; rfl

theorem splitDots_append {part : List Char} (h : '.' ∉ part) {cs first : List Char} {others : List (List Char)}
    (hcs : splitDots cs = first :: others) : splitDots (part ++ cs) = (part ++ first) :: others := by
  induction part with
  | nil => exact hcs
  | cons c part ih =>
    have hc : (c == '.') = false := beq_eq_false_iff_ne.2 fun hc => h (hc ▸ mem_cons_self)
    rw [cons_append, splitDots, ih fun hm => h (mem_cons_of_mem c hm)]
    rw [hc]
    rfl

theorem splitDots_map_toUpper (cs : List Char) : splitDots (cs.map toUpper) = (splitDots cs).map (·.map toUpper) := by
  induction cs with
  | nil => rfl
  | cons c cs ih =>
    rw [map_cons, splitDots, splitDots, ih]
    cases splitDots cs with
    | nil => rfl
    | cons part parts =>
      simp only [map_cons, toUpper_beq (k := '.') rfl]
      split <;> rfl

def Undotted (name : String) : Prop := '.' ∉ name.toList

instance (name : String) : Decidable (Undotted name) := inferInstanceAs (Decidable ('.' ∉ name.toList))

def dottedParts (name : String) : List String := (splitDots name.toList).map String.ofList

theorem dottedParts_undotted {name : String} (h : Undotted name) : dottedParts name = [name] := by
  have hsplit : splitDots (name.toList ++ []) = [name.toList ++ []] := splitDots_append h rfl
  rw [append_nil] at hsplit
  unfold dottedParts
  rw [hsplit, map_singleton, String.ofList_toList]

theorem dottedParts_append {part : String} (h : Undotted part) (rest : String) :
    dottedParts (part ++ "." ++ rest) = part :: dottedParts rest := by
  have hsplit := splitDots_append h (splitDots_dot rest.toList)
  have hlist : (part ++ "." ++ rest).toList = part.toList ++ '.' :: rest.toList := by simp
  unfold dottedParts
  rw [hlist, hsplit, append_nil, map_cons, String.ofList_toList]

theorem undotted_or_split (name : String) :
    Undotted name ∨ ∃ part rest, Undotted part ∧ name = part ++ "." ++ rest := by
  by_cases h : '.' ∈ name.toList
  · obtain ⟨first, others, hsplit, hfirst⟩ := eq_append_cons_of_mem h
    refine .inr ⟨String.ofList first, String.ofList others, ?_, ?_⟩
    · unfold Undotted
      rwa [String.toList_ofList]
    · rw [← String.toList_inj]
      simp [hsplit]
  · exact .inl h

/-- What holds of undotted names and with one part more in front holds of all names. -/
@[elab_as_elim]
theorem dotted_induction {motive : String → Prop} (undotted : ∀ name, Undotted name → motive name)
    (split : ∀ part rest, Undotted part → motive rest → motive (part ++ "." ++ rest)) (name : String) :
    motive name := by
  induction hn : name.length using Nat.strongRecOn generalizing name with
  | ind n ih =>
    rcases undotted_or_split name with h | ⟨part, rest, h, rfl⟩
    · exact undotted name h
    · have hlt : rest.length < n := by
        rw [← hn, String.length_append, String.length_append]
        have hdot : ".".length = 1 := rfl
        omega
      exact split part rest h (ih rest.length hlt rest rfl)

theorem dottedParts_ne_nil (name : String) : dottedParts name ≠ [] := fun h =>
  splitDots_ne_nil name.toList (map_eq_nil_iff.1 h)

theorem intercalate_dottedParts (name : String) : ".".intercalate (dottedParts name) = name := by
  induction name using dotted_induction with
  | undotted name h => rw [dottedParts_undotted h, String.intercalate_singleton]
  | split part rest h ih =>
    rw [dottedParts_append h, String.intercalate_cons_of_ne_nil (dottedParts_ne_nil rest), ih]

theorem SymbolRef.ofDotted_eq (rooted : Bool) (name : String) :
    ofDotted rooted name = ⟨dottedParts (Text.upcase name), rooted⟩ := by
  unfold ofDotted dottedParts Text.upcase
  rw [String.toList_ofList, splitDots_map_toUpper, map_map]
  congr 1
  refine map_congr_left fun part _ => ?_
  rw [Function.comp_apply, String.toList_ofList]

theorem parse_rooted (name : String) : parse ("::" ++ name) = ⟨dottedParts (Text.upcase name), true⟩ := by
  have hlist : ("::" ++ name).toList = ':' :: ':' :: name.toList := by simp
  have hparse : parse ("::" ++ name) = .ofDotted true (String.ofList name.toList) := by
    unfold parse
    rw [hlist]
    rfl
  rw [hparse, ofDotted_eq, String.ofList_toList]

theorem joined_parse {name : String} (h : (parse name).rooted = false) : (parse name).joined = Text.upcase name := by
  unfold parse at h ⊢
  split at h
  · cases h
  · rw [ofDotted_eq]
    exact intercalate_dottedParts _

end SpectrumAsm
