import Mathlib.Data.List.Lex
import RmdOptions.Text.Basic

/-!
# Texts as bytes

A text is a list of characters here, and its UTF-8 bytes when it is stored. Names are compared and
tokens are measured in bytes. That comes to the same: of two characters, the one with the smaller
code point has the smaller bytes whatever follows, and of two starts of a text, the longer one has
more bytes.

* `Text.atMost_total`, `Text.atMost_trans` — the order of texts;
* `Text.bytes` — the bytes of a text;
* `Text.bytes_lt_bytes_iff` — **texts are ordered as their bytes are**.
-/

namespace RmdOptions.Text

variable {s t : Text}

/-! ## The order of texts -/

/-- The first characters decide, unless they are the same. -/
theorem atMost_cons_cons_iff {c d : Char} {s t : Text} :
    atMost (c :: s) (d :: t) = true ↔
      c.toNat < d.toNat ∨ c.toNat = d.toNat ∧ s.atMost t = true := by
  rw [atMost]
  split
  · next hlt => exact ⟨fun _ => Or.inl hlt, fun _ => rfl⟩
  · next hge =>
    split
    · next hgt =>
      constructor
      · intro h
        cases h
      · rintro (hlt | ⟨heq, -⟩)
        · exact absurd hlt hge
        · exact absurd heq (Nat.ne_of_gt hgt)
    · next hle =>
      have heq : c.toNat = d.toNat := Nat.le_antisymm (Nat.le_of_not_lt hle) (Nat.le_of_not_lt hge)
      exact ⟨fun h => Or.inr ⟨heq, h⟩, fun h => (h.resolve_left hge).2⟩

theorem atMost_total (s t : Text) : s.atMost t = true ∨ t.atMost s = true := by
  induction s generalizing t with
  | nil => exact Or.inl rfl
  | cons c s ih =>
    cases t with
    | nil => exact Or.inr rfl
    | cons d t =>
      rw [atMost_cons_cons_iff, atMost_cons_cons_iff]
      rcases Nat.lt_trichotomy c.toNat d.toNat with hlt | heq | hgt
      · exact Or.inl (Or.inl hlt)
      · exact (ih t).imp (fun h => Or.inr ⟨heq, h⟩) fun h => Or.inr ⟨heq.symm, h⟩
      · exact Or.inr (Or.inl hgt)

theorem atMost_trans {s t u : Text} (hst : s.atMost t = true) (htu : t.atMost u = true) :
    s.atMost u = true := by
  induction s generalizing t u with
  | nil => rfl
  | cons c s ih =>
    cases t with
    | nil => cases hst
    | cons d t =>
      cases u with
      | nil => cases htu
      | cons e u =>
        rw [atMost_cons_cons_iff] at hst htu ⊢
        rcases hst with hst | ⟨hcd, hst⟩
        · exact Or.inl (htu.elim (Nat.lt_trans hst) fun h => h.1 ▸ hst)
        · rcases htu with htu | ⟨hde, htu⟩
          · exact Or.inl (hcd ▸ htu)
          · exact Or.inr ⟨hcd.trans hde, ih hst htu⟩

/-! ## Bytes -/

/-- The UTF-8 bytes of a text. -/
def bytes (t : Text) : List UInt8 := t.flatMap String.utf8EncodeChar

/-- They are those of the string with the same characters. -/
theorem toUTF8_ofList (t : Text) : (String.ofList t).toUTF8.data.toList = t.bytes := by
  rw [String.toUTF8_eq_toByteArray, String.toByteArray_ofList]
  exact List.toList_data_toByteArray

@[simp] theorem bytes_nil : bytes [] = [] := rfl

@[simp] theorem bytes_cons (c : Char) (t : Text) :
    bytes (c :: t) = String.utf8EncodeChar c ++ t.bytes := rfl

theorem bytes_ne_nil (h : t ≠ []) : t.bytes ≠ [] := by
  obtain ⟨c, t, rfl⟩ := List.exists_cons_of_ne_nil h
  intro hnil
  have hlength := congrArg List.length hnil
  have hpos := c.utf8Size_pos
  rw [bytes_cons, List.length_append, String.length_utf8EncodeChar, List.length_nil] at hlength
  omega

/-- A start of a text has no more bytes than the text. -/
theorem length_bytes_le (h : s <+: t) : s.bytes.length ≤ t.bytes.length := by
  obtain ⟨rest, rfl⟩ := h
  rw [bytes, bytes, List.flatMap_append, List.length_append]
  exact Nat.le_add_right _ _

/-! ## The order of bytes -/

/-- The first bytes decide, unless they are the same. -/
theorem ofNat_cons_lt_cons_iff {a b : Nat} (ha : a < 256) (hb : b < 256) {xs ys : List UInt8} :
    UInt8.ofNat a :: xs < UInt8.ofNat b :: ys ↔ a < b ∨ a = b ∧ xs < ys := by
  rw [List.cons_lt_cons_iff, UInt8.lt_iff_toNat_lt, ← UInt8.toNat_inj,
    UInt8.toNat_ofNat_of_lt' ha, UInt8.toNat_ofNat_of_lt' hb]

/-- A smaller code point has smaller bytes, whatever follows. -/
theorem utf8EncodeChar_append_lt {c d : Char} (h : c.toNat < d.toNat) (xs ys : List UInt8) :
    String.utf8EncodeChar c ++ xs < String.utf8EncodeChar d ++ ys := by
  have hvalid : d.toNat < 0xD800 ∨ 0xDFFF < d.toNat ∧ d.toNat < 0x110000 := d.valid
  simp only [String.utf8EncodeChar, Char.toNat_val]
  generalize c.toNat = m at h
  generalize d.toNat = n at h hvalid
  -- the bits above the last six, twelve and eighteen
  have hlast : m / 64 < n / 64 ∨ m / 64 = n / 64 ∧ m % 64 < n % 64 := by omega
  have hthird : m / 4096 < n / 4096 ∨ m / 4096 = n / 4096 ∧ m / 64 % 64 ≤ n / 64 % 64 := by omega
  have hsecond : m / 262144 < n / 262144 ∨
      m / 262144 = n / 262144 ∧ m / 4096 % 64 ≤ n / 4096 % 64 := by omega
  have hm : m / 262144 % 8 = m / 262144 := by omega
  have hn : n / 262144 % 8 = n / 262144 := by omega
  -- fewer bytes start with a smaller one; with as many, the first that differs is smaller
  split_ifs
  all_goals
    simp (disch := omega) only [hm, hn, List.cons_append, List.nil_append, ofNat_cons_lt_cons_iff]
    omega

theorem bytes_lt_bytes_of_atMost (h : s.atMost t = true) (hne : s ≠ t) : s.bytes < t.bytes := by
  induction s generalizing t with
  | nil =>
    obtain ⟨b, bs, hbytes⟩ := List.exists_cons_of_ne_nil (bytes_ne_nil (Ne.symm hne))
    rw [hbytes]
    exact List.nil_lt_cons b bs
  | cons c s ih =>
    cases t with
    | nil => cases h
    | cons d t =>
      rcases atMost_cons_cons_iff.mp h with hlt | ⟨heq, hrest⟩
      · exact utf8EncodeChar_append_lt hlt _ _
      · obtain rfl := Char.toNat_inj.mp heq
        exact List.append_left_lt (ih hrest fun hst => hne (by rw [hst]))

/-- **Texts are ordered as their bytes are.** -/
theorem bytes_lt_bytes_iff : s.bytes < t.bytes ↔ s.atMost t = true ∧ s ≠ t := by
  constructor
  · intro h
    have hne : s ≠ t := by
      rintro rfl
      exact List.lt_irrefl _ h
    refine ⟨(s.atMost_total t).resolve_right fun hts => ?_, hne⟩
    exact List.lt_asymm h (bytes_lt_bytes_of_atMost hts (Ne.symm hne))
  · rintro ⟨h, hne⟩
    exact bytes_lt_bytes_of_atMost h hne

end RmdOptions.Text
