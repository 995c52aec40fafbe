import Depot.Text.Split
import Depot.Text.Utf8
import Mathlib.Data.List.Basic
import Mathlib.Tactic.Ring

/-!
# Texts and their octets

* A separator cuts a text and its UTF-8 form at the same places (`splitOn_encode`), because no
  octet of another character is an octet of ASCII.
* Reading undoes writing (`lossy_encode`).
* Reading makes up no ASCII: an ASCII character of the reading was an octet
  (`mem_of_mem_lossyChars`), and a reading that is all ASCII is what was read (`encode_lossy`).
  `Pending.Sound` is what carries this: whatever octets follow, the sequence under way can only end
  in a character beyond ASCII.
-/

namespace Depot.Text

/-! ## Cutting -/

section Cutting

variable {α β : Type} [DecidableEq α] [DecidableEq β]

theorem splitOn_run_append (sep : α) {run : List α} (h : sep ∉ run) (xs : List α) :
    splitOn sep (run ++ xs) = (splitOn sep xs).modifyHead (run ++ ·) := by
  induction run with
  | nil => cases hs : splitOn sep xs <;> simp [hs]
  | cons x run ih =>
    rw [List.mem_cons, not_or] at h
    rw [List.cons_append, splitOn, if_neg (Ne.symm h.1), ih h.2]
    cases hs : splitOn sep xs with
    | nil => exact absurd hs (splitOn_ne_nil sep xs)
    | cons first runs => rfl

/-- Cutting a list at one of its separators cuts both sides of it. -/
theorem splitOn_append_sep (sep : α) (xs ys : List α) :
    splitOn sep (xs ++ sep :: ys) = splitOn sep xs ++ splitOn sep ys := by
  induction xs with
  | nil => simp [splitOn]
  | cons x xs ih =>
    rw [List.cons_append, splitOn, splitOn, ih]
    split
    · rfl
    · cases hs : splitOn sep xs with
      | nil => exact absurd hs (splitOn_ne_nil sep xs)
      | cons first runs => rfl

/-- A map that takes the separator to a separator, and nothing else to a list that holds one,
commutes with cutting. -/
theorem splitOn_flatMap {f : α → List β} {a : α} {b : β} (hsep : f a = [b])
    (hother : ∀ x, x ≠ a → b ∉ f x) (xs : List α) :
    splitOn b (xs.flatMap f) = (splitOn a xs).map (·.flatMap f) := by
  induction xs with
  | nil => rfl
  | cons x xs ih =>
    by_cases hx : x = a
    · rw [List.flatMap_cons, hx, hsep, splitOn, if_pos rfl]
      simp [splitOn, ih]
    · rw [List.flatMap_cons, splitOn_run_append b (hother x hx), ih, splitOn, if_neg hx]
      cases hs : splitOn a xs with
      | nil => exact absurd hs (splitOn_ne_nil a xs)
      | cons first runs => rfl

/-- What is not the separator is in one of the runs. -/
theorem mem_splitOn (sep : α) {x : α} {xs : List α} (h : x ∈ xs) :
    x = sep ∨ x ∈ (splitOn sep xs).flatten := by
  induction xs with
  | nil => exact absurd h List.not_mem_nil
  | cons y ys ih =>
    unfold splitOn
    by_cases hy : y = sep
    · rcases List.mem_cons.mp h with rfl | h
      · exact .inl hy
      · simpa [hy] using ih h
    · rw [if_neg hy]
      cases hs : splitOn sep ys with
      | nil => exact absurd hs (splitOn_ne_nil sep ys)
      | cons run runs =>
        rcases List.mem_cons.mp h with rfl | h
        · exact .inr (by simp)
        · exact (ih h).imp_right fun hm => by
            rw [hs] at hm
            exact List.mem_cons_of_mem _ hm

end Cutting

theorem mem_joinWith {α : Type} {sep x : α} {runs : List (List α)} (h : x ∈ joinWith sep runs) :
    x = sep ∨ ∃ run ∈ runs, x ∈ run := by
  fun_induction joinWith sep runs with
  | case1 => exact absurd h List.not_mem_nil
  | case2 run => exact .inr ⟨run, by simp, h⟩
  | case3 run next runs ih =>
    rcases List.mem_append.mp h with h | h
    · exact .inr ⟨run, by simp, h⟩
    · rcases List.mem_cons.mp h with h | h
      · exact .inl h
      · obtain h | ⟨run', hr, h⟩ := ih h
        · exact .inl h
        · exact .inr ⟨run', List.mem_cons_of_mem _ hr, h⟩

/-- Texts that are joined are joined as lists of characters or of octets. -/
theorem map_intercalate {α : Type} (glue : String) (f : String → List α) (sep : α)
    (hnil : f "" = []) (hsep : f glue = [sep]) (happ : ∀ s t, f (s ++ t) = f s ++ f t)
    (parts : List String) : f (glue.intercalate parts) = joinWith sep (parts.map f) := by
  induction parts with
  | nil => exact hnil
  | cons part parts ih =>
    cases parts with
    | nil => simp [joinWith]
    | cons next parts =>
      rw [String.intercalate_cons_cons, happ, happ, ih, hsep]
      simp [joinWith]

/-- The characters of texts that are joined with one character between each two. -/
theorem toList_intercalate (sep : Char) {glue : String} (hsep : glue.toList = [sep])
    (parts : List String) :
    (glue.intercalate parts).toList = joinWith sep (parts.map String.toList) :=
  map_intercalate glue String.toList sep rfl hsep (fun _ _ => String.toList_append) parts

/-! ## The octets of a character -/

theorem utf8EncodeChar_ascii {c : Char} (h : c.toNat < 0x80) :
    String.utf8EncodeChar c = [UInt8.ofNat c.toNat] := by
  have h' : c.val.toNat ≤ 0x7f := Nat.le_of_lt_succ h
  simp only [String.utf8EncodeChar]
  rw [if_pos h']
  rfl

/-- Every octet of a character beyond ASCII is beyond ASCII. -/
theorem le_of_mem_utf8EncodeChar {c : Char} (h : 0x80 ≤ c.toNat) {b : UInt8}
    (hb : b ∈ String.utf8EncodeChar c) : 0x80 ≤ b.toNat := by
  have h' : ¬ c.val.toNat ≤ 0x7f := Nat.not_le.mpr h
  simp only [String.utf8EncodeChar] at hb
  rw [if_neg h'] at hb
  split at hb <;> (try split at hb) <;>
    simp only [List.mem_cons, List.not_mem_nil, or_false] at hb <;>
    rcases hb with rfl | hb <;>
    (try rcases hb with rfl | hb) <;> (try rcases hb with rfl | hb) <;> (try subst hb) <;>
    simp only [UInt8.toNat_ofNat'] <;> omega

@[simp] theorem encode_append (s t : String) : encode (s ++ t) = encode s ++ encode t := by
  simp [encode]

theorem encode_ofList (cs : List Char) :
    encode (String.ofList cs) = cs.flatMap String.utf8EncodeChar := by
  simp [encode]

theorem encode_eq_nil_iff {s : String} : encode s = [] ↔ s = "" := by
  refine ⟨fun h => ?_, fun h => h ▸ rfl⟩
  rw [← String.toList_eq_nil_iff]
  by_contra hs
  obtain ⟨c, cs, hc⟩ := List.exists_cons_of_ne_nil hs
  rw [encode, hc, List.flatMap_cons, List.append_eq_nil_iff] at h
  exact String.utf8EncodeChar_ne_nil h.1

/-- An ASCII octet stands in the octets of a text just if its character stands in the text. -/
theorem mem_encode_ascii {c : Char} (hc : c.toNat < 0x80) {s : String} :
    UInt8.ofNat c.toNat ∈ encode s ↔ c ∈ s.toList := by
  rw [encode, List.mem_flatMap]
  constructor
  · rintro ⟨d, hd, hb⟩
    by_cases h : d.toNat < 0x80
    · rw [utf8EncodeChar_ascii h, List.mem_singleton] at hb
      have hn : c.toNat = d.toNat := by
        have := congrArg UInt8.toNat hb
        simp only [UInt8.toNat_ofNat'] at this
        omega
      rwa [Char.toNat_inj.mp hn]
    · have := le_of_mem_utf8EncodeChar (Nat.not_lt.mp h) hb
      simp only [UInt8.toNat_ofNat'] at this
      omega
  · exact fun h => ⟨c, h, by simp [utf8EncodeChar_ascii hc]⟩

/-- An ASCII separator cuts a text where it cuts the octets. -/
theorem splitOn_encode {c : Char} (hc : c.toNat < 0x80) (s : String) :
    splitOn (UInt8.ofNat c.toNat) (encode s)
      = (splitOn c s.toList).map fun run => encode (String.ofList run) := by
  simp only [encode_ofList]
  refine splitOn_flatMap (utf8EncodeChar_ascii hc) (fun d hd hm => hd ?_) s.toList
  have h := (mem_encode_ascii hc (s := String.ofList [d])).mp (by simpa [encode] using hm)
  exact (List.mem_singleton.mp (by simpa using h)).symm

/-! ## Reading what was written -/

theorem start_ascii : ∀ n < 0x80, start (UInt8.ofNat n) = ([Char.ofNat n], .idle) := by
  decide

theorem start_two : ∀ n < 32, 2 ≤ n →
    start (UInt8.ofNat (n + 0xC0)) = ([], .within 0 0x80 0xBF n) := by
  decide

theorem start_three : ∀ n < 16,
    start (UInt8.ofNat (n + 0xE0))
      = ([], .within 1 (if n = 0 then 0xA0 else 0x80) (if n = 0xD then 0x9F else 0xBF) n) := by
  decide

theorem start_four : ∀ n < 5,
    start (UInt8.ofNat (n + 0xF0))
      = ([], .within 2 (if n = 0 then 0x90 else 0x80) (if n = 4 then 0x8F else 0xBF) n) := by
  decide

/-- An octet in the range goes on with the sequence. -/
theorem advance_within {lo hi : UInt8} {code m : Nat} (missing : Nat) (hm : m < 0x40)
    (hlo : lo.toNat ≤ m + 0x80) (hhi : m + 0x80 ≤ hi.toNat) :
    advance (.within missing lo hi code) (UInt8.ofNat (m + 0x80))
      = match missing with
        | 0 => ([Char.ofNat (code * 64 + m)], .idle)
        | missing + 1 => ([], .within missing 0x80 0xBF (code * 64 + m)) := by
  have hb : (UInt8.ofNat (m + 0x80)).toNat = m + 0x80 := by
    rw [UInt8.toNat_ofNat']; omega
  have hrange : lo ≤ UInt8.ofNat (m + 0x80) ∧ UInt8.ofNat (m + 0x80) ≤ hi :=
    ⟨UInt8.le_iff_toNat_le.mpr (by omega), UInt8.le_iff_toNat_le.mpr (by omega)⟩
  cases missing with
  | zero => simp only [advance, if_pos hrange, hb, Nat.add_sub_cancel]
  | succ missing => simp only [advance, if_pos hrange, hb, Nat.add_sub_cancel]

theorem lossyChars_cons (state : Pending) (b : UInt8) (bs : Bytes) :
    lossyChars state (b :: bs) = (advance state b).1 ++ lossyChars (advance state b).2 bs := by
  cases state <;> rfl

theorem lossyChars_idle_cons {b : UInt8} {cs : List Char} {next : Pending}
    (h : start b = (cs, next)) (bs : Bytes) :
    lossyChars .idle (b :: bs) = cs ++ lossyChars next bs := by
  rw [lossyChars_cons, advance, h]

theorem lossyChars_within_cons {lo hi : UInt8} {code m : Nat} (missing : Nat) (hm : m < 0x40)
    (hlo : lo.toNat ≤ m + 0x80) (hhi : m + 0x80 ≤ hi.toNat) (bs : Bytes) :
    lossyChars (.within (missing + 1) lo hi code) (UInt8.ofNat (m + 0x80) :: bs)
      = lossyChars (.within missing 0x80 0xBF (code * 64 + m)) bs := by
  rw [lossyChars_cons, advance_within _ hm hlo hhi, List.nil_append]

theorem lossyChars_last_cons {lo hi : UInt8} {code m : Nat} (hm : m < 0x40)
    (hlo : lo.toNat ≤ m + 0x80) (hhi : m + 0x80 ≤ hi.toNat) (bs : Bytes) :
    lossyChars (.within 0 lo hi code) (UInt8.ofNat (m + 0x80) :: bs)
      = Char.ofNat (code * 64 + m) :: lossyChars .idle bs := by
  rw [lossyChars_cons, advance_within _ hm hlo hhi, List.singleton_append]

/-- The octets of a character are read as that character. -/
theorem lossyChars_utf8EncodeChar (c : Char) (bs : Bytes) :
    lossyChars .idle (String.utf8EncodeChar c ++ bs) = c :: lossyChars .idle bs := by
  have hvalid : c.val.toNat < 0xD800 ∨ 0xDFFF < c.val.toNat ∧ c.val.toNat < 0x110000 := c.valid
  have hc : Char.ofNat c.val.toNat = c := Char.ofNat_toNat c
  simp only [String.utf8EncodeChar]
  generalize c.val.toNat = v at *
  split
  · rw [List.singleton_append, lossyChars_idle_cons (start_ascii v (by omega)), hc,
      List.singleton_append]
  split
  · rw [List.cons_append, List.singleton_append,
      lossyChars_idle_cons (start_two _ (by omega) (by omega)), List.nil_append,
      lossyChars_last_cons (by omega) (by simp) (by simp; omega)]
    rw [← hc]; congr; omega
  split
  · rw [List.cons_append, List.cons_append, List.singleton_append,
      lossyChars_idle_cons (start_three _ (by omega)), List.nil_append,
      lossyChars_within_cons 0 (by omega) (by split <;> simp; omega) (by split <;> simp <;> omega),
      lossyChars_last_cons (by omega) (by simp) (by simp; omega)]
    rw [← hc]; congr; omega
  · rw [List.cons_append, List.cons_append, List.cons_append, List.singleton_append,
      lossyChars_idle_cons (start_four _ (by omega)), List.nil_append,
      lossyChars_within_cons 1 (by omega) (by split <;> simp; omega) (by split <;> simp <;> omega),
      lossyChars_within_cons 0 (by omega) (by simp) (by simp; omega),
      lossyChars_last_cons (by omega) (by simp) (by simp; omega)]
    rw [← hc]; congr; omega

theorem lossyChars_flatMap (cs : List Char) :
    lossyChars .idle (cs.flatMap String.utf8EncodeChar) = cs := by
  induction cs with
  | nil => rfl
  | cons c cs ih => rw [List.flatMap_cons, lossyChars_utf8EncodeChar, ih]

/-- Reading undoes writing. -/
@[simp] theorem lossy_encode (s : String) : lossy (encode s) = s := by
  rw [lossy, encode, lossyChars_flatMap, String.ofList_toList]

theorem decode?_encode (s : String) : decode? (encode s) = some s := by
  rw [decode?, lossy_encode, if_pos rfl]

theorem encode_injective : Function.Injective encode :=
  Function.LeftInverse.injective lossy_encode

/-! ## What a reading says of the octets -/

theorem toNat_ofNat {n : Nat} (h : n.isValidChar) : (Char.ofNat n).toNat = n := by
  rw [Char.ofNat, dif_pos h]
  exact UInt32.toNat_ofNatLT

/-- Whatever octets follow, a sequence under way ends in a character beyond ASCII: these bounds
are those of its code point. -/
def Pending.Sound : Pending → Prop
  | .idle => True
  | .within missing lo hi code =>
    0x80 ≤ lo.toNat ∧ hi.toNat < 0xC0 ∧
      ∀ n, (code * 64 + (lo.toNat - 0x80)) * 64 ^ missing ≤ n →
        n < (code * 64 + (hi.toNat - 0x80) + 1) * 64 ^ missing → n.isValidChar ∧ 0x80 ≤ n

theorem Pending.sound_idle : Pending.idle.Sound :=
  trivial

/-- The bounds after the second octet, which has the whole range from then on. -/
theorem Pending.sound_within_iff {missing code : Nat} :
    (within missing 0x80 0xBF code).Sound ↔ ∀ n, code * 64 * 64 ^ missing ≤ n →
      n < (code * 64 + 64) * 64 ^ missing → n.isValidChar ∧ 0x80 ≤ n := by
  simp [Sound]

/-- An octet where no sequence is under way is ASCII, or begins nothing, or begins a sequence that
ends beyond ASCII. -/
theorem start_cases (b : UInt8) :
    (b.toNat < 0x80 ∧ start b = ([Char.ofNat b.toNat], .idle)) ∨ start b = ([replacement], .idle) ∨
      ∃ missing lo hi code, start b = ([], .within missing lo hi code) ∧
        (Pending.within missing lo hi code).Sound := by
  have hb : b.toNat < 256 := b.toNat_lt
  simp only [start, UInt8.lt_iff_toNat_lt, ← UInt8.toNat_inj, UInt8.reduceToNat]
  split
  · next h => exact .inl ⟨h, rfl⟩
  split
  · exact .inr (.inl rfl)
  repeat'
    split
    · exact .inr (.inr ⟨_, _, _, _, rfl, by decide, by decide, fun n h h' => by
        simp only [UInt8.reduceToNat, Nat.reducePow, Nat.isValidChar] at *; omega⟩)
  exact .inr (.inl rfl)

/-- Where a sequence is under way, an octet goes on with it or starts anew behind a replacement
character. -/
theorem Pending.Sound.advance_within {missing : Nat} {lo hi : UInt8} {code : Nat}
    (h : (within missing lo hi code).Sound) (b : UInt8) :
    advance (within missing lo hi code) b = (replacement :: (start b).1, (start b).2) ∨
      (∃ c : Char, 0x80 ≤ c.toNat ∧ advance (within missing lo hi code) b = ([c], .idle)) ∨
      ∃ next : Pending, next ≠ .idle ∧ next.Sound ∧
        advance (within missing lo hi code) b = ([], next) := by
  obtain ⟨hlo, hhi, hcode⟩ := h
  rw [advance]
  split
  · next hb =>
    simp only [UInt8.le_iff_toNat_le] at hb
    have hle : code * 64 + (lo.toNat - 0x80) ≤ code * 64 + (b.toNat - 0x80) := by omega
    have hlt : code * 64 + (b.toNat - 0x80) + 1 ≤ code * 64 + (hi.toNat - 0x80) + 1 := by omega
    cases missing with
    | zero =>
      have hv := hcode (code * 64 + (b.toNat - 0x80)) (by omega) (by omega)
      refine .inr (.inl ⟨Char.ofNat (code * 64 + (b.toNat - 0x80)), ?_, rfl⟩)
      rw [toNat_ofNat hv.1]
      exact hv.2
    | succ missing =>
      refine .inr (.inr ⟨.within missing 0x80 0xBF (code * 64 + (b.toNat - 0x80)), by simp,
        Pending.sound_within_iff.mpr fun n hn hn' => hcode n ?_ ?_, rfl⟩)
      -- one more octet splits the range of the sequence into sixty-four
      · calc _ ≤ (code * 64 + (b.toNat - 0x80)) * 64 ^ (missing + 1) := Nat.mul_le_mul_right _ hle
          _ = ((code * 64 + (b.toNat - 0x80)) * 64) * 64 ^ missing := by ring
          _ ≤ n := hn
      · calc n < ((code * 64 + (b.toNat - 0x80)) * 64 + 64) * 64 ^ missing := hn'
          _ = (code * 64 + (b.toNat - 0x80) + 1) * 64 ^ (missing + 1) := by ring
          _ ≤ _ := Nat.mul_le_mul_right _ hlt
  · exact .inl rfl

/-- A sequence under way ends beyond ASCII or is replaced. -/
theorem Pending.Sound.exists_foreign {state : Pending} (h : state.Sound) (hi : state ≠ .idle)
    (bs : Bytes) : ∃ c ∈ lossyChars state bs, 0x80 ≤ c.toNat := by
  induction bs generalizing state with
  | nil =>
    cases state with
    | idle => exact absurd rfl hi
    | within => exact ⟨replacement, by simp [lossyChars], by decide⟩
  | cons b bs ih =>
    cases state with
    | idle => exact absurd rfl hi
    | within =>
      rw [lossyChars_cons]
      obtain ha | ⟨c, hc, ha⟩ | ⟨next, hne, hs, ha⟩ := h.advance_within b <;> rw [ha]
      · exact ⟨replacement, by simp, by decide⟩
      · exact ⟨c, by simp, hc⟩
      · exact ih hs hne

/-- What is read as ASCII is ASCII. -/
theorem eq_map_of_lossyChars {bs : Bytes}
    (h : ∀ c ∈ lossyChars .idle bs, c.toNat < 0x80) :
    bs = (lossyChars .idle bs).map fun c => UInt8.ofNat c.toNat := by
  induction bs with
  | nil => rfl
  | cons b bs ih =>
    obtain ⟨hb, hs⟩ | hs | ⟨missing, lo, hi, code, hs, hsound⟩ := start_cases b <;>
      rw [lossyChars_idle_cons hs] at h ⊢
    · rw [List.singleton_append, List.map_cons,
        ← ih fun c hc => h c (List.mem_append_right _ hc), toNat_ofNat (Or.inl (by omega)),
        UInt8.ofNat_toNat]
    · exact absurd (h replacement (by simp)) (by decide)
    · obtain ⟨c, hc, hc'⟩ := hsound.exists_foreign (by simp) bs
      exact absurd (h c hc) (Nat.not_lt.mpr hc')

/-- An ASCII character of a reading was an octet. -/
theorem Pending.Sound.mem_of_mem_lossyChars {state : Pending} (h : state.Sound) {c : Char}
    (hc : c.toNat < 0x80) {bs : Bytes} (hm : c ∈ lossyChars state bs) :
    UInt8.ofNat c.toNat ∈ bs := by
  have hr : c ≠ replacement := fun e => absurd hc (e ▸ by decide)
  induction bs generalizing state with
  | nil => cases state <;> simp [lossyChars, hr] at hm
  | cons b bs ih =>
    -- an octet that is read anew, be it behind a replacement character
    have hstart : c ∈ (start b).1 ++ lossyChars (start b).2 bs → UInt8.ofNat c.toNat ∈ b :: bs := by
      intro hm
      obtain ⟨hb, hs⟩ | hs | ⟨missing, lo, hi, code, hs, hsound⟩ := start_cases b <;> rw [hs] at hm
      · rcases List.mem_append.mp hm with hm | hm
        · rw [List.mem_singleton.mp hm, toNat_ofNat (Or.inl (by omega)), UInt8.ofNat_toNat]
          exact List.mem_cons_self
        · exact List.mem_cons_of_mem _ (ih Pending.sound_idle hm)
      · exact List.mem_cons_of_mem _ (ih Pending.sound_idle (by simpa [hr] using hm))
      · exact List.mem_cons_of_mem _ (ih hsound hm)
    rw [lossyChars_cons] at hm
    cases state with
    | idle => exact hstart hm
    | within =>
      obtain ha | ⟨d, hd, ha⟩ | ⟨next, hne, hs, ha⟩ := h.advance_within b <;> rw [ha] at hm
      · exact hstart (by simpa [hr] using hm)
      · have hcd : c ≠ d := fun e => absurd hc (Nat.not_lt.mpr (e ▸ hd))
        exact List.mem_cons_of_mem _ (ih Pending.sound_idle (by simpa [hcd] using hm))
      · exact List.mem_cons_of_mem _ (ih hs hm)

/-- An ASCII character of a reading was an octet. -/
theorem mem_of_mem_lossy {c : Char} (hc : c.toNat < 0x80) {bs : Bytes}
    (hm : c ∈ (lossy bs).toList) : UInt8.ofNat c.toNat ∈ bs :=
  Pending.sound_idle.mem_of_mem_lossyChars hc (by simpa [lossy] using hm)

/-- A reading that is all ASCII is what was read. -/
theorem encode_lossy {bs : Bytes} (h : ∀ c ∈ (lossy bs).toList, c.toNat < 0x80) :
    encode (lossy bs) = bs := by
  rw [lossy, String.toList_ofList] at h
  rw [lossy, encode_ofList]
  conv_rhs => rw [eq_map_of_lossyChars h]
  rw [← List.flatMap_singleton' (List.map _ _), List.flatMap_map]
  exact List.flatMap_congr fun c hc => utf8EncodeChar_ascii (h c hc)

end Depot.Text
