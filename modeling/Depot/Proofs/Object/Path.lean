import Depot.Object.Path
import Depot.Proofs.Resource

/-!
# Paths of objects

Escaping loses nothing: two parts with the same escaped form are equal (`encodePart_injective`). So
two keys have the same object just if they have the same parts, the empty ones apart
(`ofKey_eq_iff`).
-/

namespace Depot

open Text

/-! ## Octets with a percent sign -/

theorem hexDigit_injective : ∀ m < 16, ∀ n < 16,
    (Nat.digitChar m).toUpper = (Nat.digitChar n).toUpper → m = n := by
  decide

theorem percent_injective {a b : UInt8} (h : percent a = percent b) : a = b := by
  simp only [percent, List.cons.injEq, true_and, and_true] at h
  have ha := a.toNat_lt
  have hb := b.toNat_lt
  have hhi := hexDigit_injective _ (by omega) _ (by omega) h.1
  have hlo := hexDigit_injective _ (by omega) _ (by omega) h.2
  exact UInt8.toNat_inj.mp (by omega)

theorem percent_eq (b : UInt8) : percent b
    = '%' :: [(Nat.digitChar (b.toNat / 16)).toUpper, (Nat.digitChar (b.toNat % 16)).toUpper] :=
  rfl

theorem toNat_ofNat_octet (b : UInt8) : (Char.ofNat b.toNat).toNat = b.toNat :=
  toNat_ofNat (Or.inl (Nat.lt_trans b.toNat_lt (by decide)))

/-- A character of an octet that is kept is no percent sign. -/
theorem ofNat_ne_percent {keeps : UInt8 → Bool} (hk : keeps 0x25 = false) {b : UInt8}
    (hb : keeps b = true) : Char.ofNat b.toNat ≠ '%' := by
  intro he
  have hn : b.toNat = 0x25 := (toNat_ofNat_octet b).symm.trans (congrArg Char.toNat he)
  have hb' : b = 0x25 := UInt8.toNat_inj.mp hn
  rw [hb', hk] at hb
  exact absurd hb (by simp)

/-- What is written with percent signs says which octets it stands for, whichever octets are kept
as they are, unless the percent sign is one of them. -/
theorem percentEncode_injective {keeps keeps' : UInt8 → Bool} (hk : keeps 0x25 = false)
    (hk' : keeps' 0x25 = false) {bs bs' : Bytes}
    (h : percentEncode keeps bs = percentEncode keeps' bs') : bs = bs' := by
  induction bs generalizing bs' with
  | nil =>
    cases bs' with
    | nil => rfl
    | cons b bs' =>
      simp only [percentEncode, List.flatMap_nil, List.flatMap_cons] at h
      split at h <;> exact absurd h (by simp [percent_eq])
  | cons a bs ih =>
    cases bs' with
    | nil =>
      simp only [percentEncode, List.flatMap_nil, List.flatMap_cons] at h
      split at h <;> exact absurd h (by simp [percent_eq])
    | cons b bs' =>
      simp only [percentEncode, List.flatMap_cons] at h
      split at h <;> split at h
      · -- both octets are kept
        obtain ⟨hc, ht⟩ := List.cons.inj h
        have hn := congrArg Char.toNat hc
        rw [toNat_ofNat_octet, toNat_ofNat_octet] at hn
        rw [UInt8.toNat_inj.mp hn, ih ht]
      · next ha hb =>
        exact absurd (List.cons.inj h).1 (ofNat_ne_percent hk ha)
      · next ha hb =>
        exact absurd (List.cons.inj h).1.symm (ofNat_ne_percent hk' hb)
      · -- both octets are escaped, to three characters each
        obtain ⟨hp, ht⟩ := List.append_inj h rfl
        rw [percent_injective hp, ih ht]

/-! ## Parts -/

namespace ObjectPath

/-- The octets that are kept in a part: none if the part is escaped as a whole. -/
def keepsIn (part : List Char) (b : UInt8) : Bool :=
  !(part == ['.'] || part == ['.', '.']) && keeps b

theorem encodePart_eq (part : List Char) :
    encodePart part
      = String.ofList (percentEncode (keepsIn part) (encode (String.ofList part))) := by
  unfold encodePart
  split
  · next h => subst h; decide
  split
  · next h => subst h; decide
  · next h1 h2 =>
    have hk : keepsIn part = keeps := by
      funext b
      simp [keepsIn, h1, h2]
    rw [hk]

theorem encodePart_injective : Function.Injective encodePart := by
  intro p q h
  rw [encodePart_eq, encodePart_eq, String.ofList_inj] at h
  have hk : ∀ part, keepsIn part 0x25 = false := by
    intro part
    rw [keepsIn, show keeps 0x25 = false by decide, Bool.and_false]
  exact String.ofList_inj.mp (encode_injective (percentEncode_injective (hk p) (hk q) h))

/-- The parts of a key that count. -/
def keyParts (key : String) : List (List Char) :=
  (splitOn '/' key.toList).filter (· ≠ [])

theorem ofKey_eq_iff {k k' : String} : ofKey k = ofKey k' ↔ keyParts k = keyParts k' := by
  rw [ofKey, ofKey, ObjectPath.mk.injEq]
  exact (List.map_injective_iff.mpr encodePart_injective).eq_iff

/-- The parts of a file's key are those of the stem and its names. -/
theorem keyParts_fileKey (stem : String) (names : List Name) :
    keyParts (stem ++ "/" ++ Resource.relativeKey names)
      = keyParts stem ++ names.map fun n => n.display.toList := by
  have hl : (stem ++ "/" ++ Resource.relativeKey names).toList
      = stem.toList ++ '/' :: (Resource.relativeKey names).toList := by simp
  rw [keyParts, hl, splitOn_append_sep, List.filter_append, keyParts]
  congr 1
  by_cases hn : names = []
  · subst hn
    rfl
  · rw [Resource.splitOn_relativeKey hn, List.filter_eq_self]
    intro part hp
    obtain ⟨n, -, rfl⟩ := List.mem_map.mp hp
    exact decide_eq_true fun he => n.isName_display.1 (String.toList_eq_nil_iff.mp he)

theorem ofKey_fileKey_inj {stem : String} {names names' : List Name}
    (h : ofKey (stem ++ "/" ++ Resource.relativeKey names)
      = ofKey (stem ++ "/" ++ Resource.relativeKey names')) :
    Resource.relativeKey names = Resource.relativeKey names' := by
  rw [ofKey_eq_iff, keyParts_fileKey, keyParts_fileKey] at h
  have hd : names.map Name.display = names'.map Name.display := by
    refine List.map_injective_iff.mpr (fun _ _ => String.toList_inj.mp) ?_
    rw [List.map_map, List.map_map]
    exact List.append_cancel_left h
  rw [Resource.relativeKey, Resource.relativeKey, hd]

end ObjectPath

end Depot
