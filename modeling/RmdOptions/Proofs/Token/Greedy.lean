import Mathlib.Computability.Language
import Mathlib.Data.List.TakeWhile
import RmdOptions.Proofs.Token.Rule

/-!
# Readers that take as much as they can

A reader looks at the start of a text and says how many characters it takes. It is greedy for a
language when these characters are in the language and no longer start of the text is. Readers that
are put one behind another are not greedy only because each of them is: the first could take what
the second needs. It cannot if a text only goes on with the first language at characters at which no
text of the second starts, so that is kept along.

* `one`, `StartsWith` — texts of one character, and languages whose texts start with some character;
* `Covers`, `Greedy` — what is taken at least, and greedy readers with the characters at which they
  go on;
* `Greedy.one`, `Greedy.star`, `Greedy.mul`, `Greedy.or`, … — one case for each way to build a
  language;
* `Greedy.among` — words that are tried in order.
-/

namespace RmdOptions.Rule

open Computability

/-! ## Languages -/

/-- The texts of one character that `f` accepts. -/
def one (f : Char → Bool) : Language Char := {t | ∃ c, f c = true ∧ t = [c]}

/-- The texts of characters that `f` accepts, at least one. -/
def several (f : Char → Bool) : Language Char := one f * (one f)∗

/-- Some words. -/
def among (words : List Text) : Language Char := {t | t ∈ words}

/-- The texts of a language, and none. -/
def perhaps (language : Language Char) : Language Char := 1 + language

/-- All texts of a language start with a character that `f` accepts. -/
def StartsWith (f : Char → Bool) (language : Language Char) : Prop :=
  ∀ p ∈ language, ∃ c rest, p = c :: rest ∧ f c = true

variable {f g : Char → Bool} {A B : Language Char} {p rest : Text} {n : Nat}

theorem mem_one_star : p ∈ (one f)∗ ↔ ∀ c ∈ p, f c = true := by
  rw [Language.mem_kstar]
  constructor
  · rintro ⟨parts, rfl, hparts⟩ c hc
    obtain ⟨part, hpart, hmem⟩ := List.mem_flatten.mp hc
    obtain ⟨d, hd, rfl⟩ := hparts part hpart
    rwa [List.mem_singleton.mp hmem]
  · intro h
    refine ⟨p.map fun c => [c], ?_, fun part hpart => ?_⟩
    · rw [← List.flatMap_def, List.flatMap_singleton']
    obtain ⟨c, hc, rfl⟩ := List.mem_map.mp hpart
    exact ⟨c, h c hc, rfl⟩

theorem startsWith_one (f : Char → Bool) : StartsWith f (one f) := by
  rintro p ⟨c, hc, rfl⟩
  exact ⟨c, [], rfl, hc⟩

theorem StartsWith.mul (h : StartsWith f A) (B : Language Char) : StartsWith f (A * B) := by
  intro p hp
  obtain ⟨a, ha, b, -, rfl⟩ := Language.mem_mul.mp hp
  obtain ⟨c, rest, rfl, hc⟩ := h a ha
  exact ⟨c, rest ++ b, rfl, hc⟩

theorem startsWith_several (f : Char → Bool) : StartsWith f (several f) := (startsWith_one f).mul _

theorem StartsWith.head (h : StartsWith f A) (hp : p ∈ A) : ∀ c ∈ p.head?, f c = true := by
  obtain ⟨c, rest, rfl, hc⟩ := h p hp
  rintro d ⟨⟩
  exact hc

theorem StartsWith.head_perhaps (h : StartsWith f A) (hp : p ∈ perhaps A) :
    ∀ c ∈ p.head?, f c = true := by
  rcases (Language.mem_add 1 A p).mp hp with hp | hp
  · rw [(Language.mem_one p).mp hp]
    exact fun c hc => nomatch hc
  · exact h.head hp

/-! ## Readers -/

/-- Of `p` and what follows it, `n` characters cover `p`, and more than `p` only if what follows
starts with a character that `more` accepts. -/
def Covers (more : Char → Bool) (p rest : Text) (n : Nat) : Prop :=
  n = p.length ∨ p.length < n ∧ ∃ c ∈ rest.head?, more c = true

theorem Covers.length_le {more : Char → Bool} (h : Covers more p rest n) : p.length ≤ n := by
  rcases h with rfl | ⟨hlt, -⟩
  · exact Nat.le_refl _
  · exact Nat.le_of_lt hlt

/-- Where any character is accepted, it is enough to take all of `p`. -/
theorem covers_of_length_le (hle : p.length ≤ n) (hn : n ≤ (p ++ rest).length) :
    Covers (fun _ => true) p rest n := by
  rcases Nat.eq_or_lt_of_le hle with heq | hlt
  · exact Or.inl heq.symm
  · refine Or.inr ⟨hlt, ?_⟩
    cases rest with
    | nil =>
      rw [List.append_nil] at hn
      exact absurd hn (Nat.not_le_of_lt hlt)
    | cons c rest => exact ⟨c, rfl, rfl⟩

/-- A reader takes texts of a language, and as much as it can: in front of anything it takes all of
a text of the language, and goes on behind it only where a character comes that `more` accepts. -/
structure Greedy (language : Language Char) (more : Char → Bool) (read : Text → Option Nat) :
    Prop where
  /-- what is taken is there, and in the language -/
  sound : ∀ {t : Text} {n : Nat}, read t = some n → n ≤ t.length ∧ t.take n ∈ language
  /-- all of a text of the language is taken -/
  covers : ∀ {p : Text}, p ∈ language → ∀ rest, ∃ n, read (p ++ rest) = some n ∧
    Covers more p rest n

namespace Greedy

variable {more more' : Char → Bool} {read read' : Text → Option Nat}

theorem congr (h : Greedy A more read) (hread : ∀ t, read' t = read t) : Greedy A more read' := by
  obtain rfl : read' = read := funext hread
  exact h

/-- Accepting more characters asks for less. -/
theorem weaken (h : Greedy A more read) (hmore : ∀ c, more c = true → more' c = true) :
    Greedy A more' read where
  sound := h.sound
  covers hp rest := by
    obtain ⟨n, hn, hcovers⟩ := h.covers hp rest
    refine ⟨n, hn, hcovers.imp_right ?_⟩
    rintro ⟨hlt, c, hc, hcmore⟩
    exact ⟨hlt, c, hc, hmore c hcmore⟩

/-- A single character. -/
theorem one (f : Char → Bool) : Greedy (one f) (fun _ => false)
    (fun t => if t.head?.any f then some 1 else none) where
  sound := by
    intro t n h
    split at h
    · next hhead =>
      obtain ⟨c, hc, hf⟩ := (Option.any_eq_true f t.head?).mp hhead
      obtain ⟨rest, rfl⟩ := List.head?_eq_some_iff.mp hc
      cases h
      exact ⟨by simp, c, hf, rfl⟩
    · cases h
  covers := by
    rintro p ⟨c, hc, rfl⟩ rest
    exact ⟨1, if_pos hc, Or.inl rfl⟩

/-- Characters of a kind, as far as they go. -/
theorem star (f : Char → Bool) : Greedy (Rule.one f)∗ f (fun t => some (leading f t)) where
  sound := by
    intro t n h
    cases h
    refine ⟨leading_le f t, mem_one_star.mpr fun c hc => ?_⟩
    rw [leading, ← List.prefix_iff_eq_take.mp (List.takeWhile_prefix f)] at hc
    exact List.mem_takeWhile_imp hc
  covers := by
    intro p hp rest
    rw [mem_one_star] at hp
    refine ⟨_, rfl, ?_⟩
    rw [leading_append_of_all hp]
    cases rest with
    | nil => exact Or.inl rfl
    | cons c rest =>
      by_cases hc : f c = true
      · refine Or.inr ⟨?_, c, rfl, hc⟩
        simp [leading, hc]
      · exact Or.inl (by simp [leading, hc])

/-- One reader behind another. The first does not go on into a text of the second language. -/
theorem mul (ha : Greedy A more read) (hb : Greedy B more' read')
    (hapart : ∀ q ∈ B, ∀ c ∈ q.head?, more c = false) :
    Greedy (A * B) (fun c => more c || more' c)
      (fun t => (read t).bind fun n => (read' (t.drop n)).map (n + ·)) where
  sound := by
    intro t n h
    obtain ⟨i, hi, h⟩ := Option.bind_eq_some_iff.mp h
    obtain ⟨j, hj, rfl⟩ := Option.map_eq_some_iff.mp h
    obtain ⟨hile, hia⟩ := ha.sound hi
    obtain ⟨hjle, hjb⟩ := hb.sound hj
    rw [List.length_drop] at hjle
    refine ⟨by omega, ?_⟩
    rw [List.take_add]
    exact Language.mem_mul.mpr ⟨_, hia, _, hjb, rfl⟩
  covers := by
    intro p hp rest
    obtain ⟨a, hamem, b, hbmem, rfl⟩ := Language.mem_mul.mp hp
    obtain ⟨i, hi, hicovers⟩ := ha.covers hamem (b ++ rest)
    rw [List.append_assoc, hi, Option.bind_some]
    rcases hicovers with rfl | ⟨hlt, c, hc, hcmore⟩
    · obtain ⟨j, hj, hjcovers⟩ := hb.covers hbmem rest
      rw [List.drop_left, hj]
      refine ⟨a.length + j, rfl, ?_⟩
      rcases hjcovers with rfl | ⟨hlt, c, hc, hcmore⟩
      · exact Or.inl List.length_append.symm
      · refine Or.inr ⟨?_, c, hc, by simp [hcmore]⟩
        rw [List.length_append]
        omega
    · -- the first reader goes on, so that nothing is left for the second to start with
      cases b with
      | cons d b =>
        rw [hapart _ hbmem c hc] at hcmore
        cases hcmore
      | nil =>
        obtain ⟨j, hj, -⟩ := hb.covers hbmem ((a ++ ([] ++ rest)).drop i)
        rw [List.nil_append] at hj
        rw [hj]
        refine ⟨i + j, rfl, Or.inr ⟨?_, c, hc, by simp [hcmore]⟩⟩
        rw [List.append_nil]
        omega

/-- A part that may be missing. -/
theorem perhaps (h : Greedy A more read) (hstart : StartsWith f A) :
    Greedy (perhaps A) (fun c => f c || more c) (fun t => some ((read t).getD 0)) where
  sound := by
    intro t n hn
    cases hn
    cases hread : read t with
    | none => exact ⟨Nat.zero_le _, Or.inl rfl⟩
    | some n =>
      obtain ⟨hle, hmem⟩ := h.sound hread
      exact ⟨hle, Or.inr hmem⟩
  covers := by
    intro p hp rest
    refine ⟨_, rfl, ?_⟩
    rcases (Language.mem_add 1 A p).mp hp with hp | hp
    · -- what is taken without being asked for starts where the part may start
      obtain rfl := (Language.mem_one p).mp hp
      rw [List.nil_append]
      cases hread : read rest with
      | none => exact Or.inl rfl
      | some n =>
        obtain ⟨hle, hmem⟩ := h.sound hread
        obtain ⟨c, taken, htake, hc⟩ := hstart _ hmem
        have hpos : 0 < n := by
          rcases Nat.eq_zero_or_pos n with rfl | hpos
          · cases htake
          · exact hpos
        refine Or.inr ⟨hpos, c, ?_, by simp [hc]⟩
        rw [← List.take_append_drop n rest, htake]
        rfl
    · obtain ⟨n, hn, hcovers⟩ := h.covers hp rest
      rw [hn]
      refine hcovers.imp_right ?_
      rintro ⟨hlt, c, hc, hcmore⟩
      exact ⟨hlt, c, hc, by simp [hcmore]⟩

/-- Two readers, the first of them preferred. Where it takes something, it covers what the second
could take. -/
theorem or (ha : Greedy A more read) (hb : Greedy B more read')
    (hfirst : ∀ q ∈ B, ∀ rest n, read (q ++ rest) = some n → Covers more q rest n) :
    Greedy (A + B) more (fun t => (read t).or (read' t)) where
  sound := by
    intro t n h
    rcases Option.or_eq_some_iff.mp h with h | ⟨-, h⟩
    · exact ⟨(ha.sound h).1, Or.inl (ha.sound h).2⟩
    · exact ⟨(hb.sound h).1, Or.inr (hb.sound h).2⟩
  covers := by
    intro p hp rest
    rcases (Language.mem_add A B p).mp hp with hp | hp
    · obtain ⟨n, hn, hcovers⟩ := ha.covers hp rest
      exact ⟨n, by rw [hn, Option.some_or], hcovers⟩
    · cases hread : read (p ++ rest) with
      | some n => exact ⟨n, Option.some_or, hfirst p hp rest n hread⟩
      | none =>
        obtain ⟨n, hn, hcovers⟩ := hb.covers hp rest
        exact ⟨n, hn, hcovers⟩

/-- Two readers whose texts start with different characters. -/
theorem or_of_apart (ha : Greedy A more read) (hb : Greedy B more' read') (hastart : StartsWith f A)
    (hbstart : StartsWith g B) (hapart : ∀ c, g c = true → f c = false) :
    Greedy (A + B) (fun c => more c || more' c) (fun t => (read t).or (read' t)) := by
  refine (ha.weaken fun c hc => by simp [hc]).or
    (hb.weaken fun c hc => by simp [hc]) ?_
  intro q hq rest n hn
  obtain ⟨c, q, rfl, hc⟩ := hbstart q hq
  obtain ⟨d, _, htake, hd⟩ := hastart _ (ha.sound hn).2
  obtain ⟨n, rfl⟩ : ∃ m, n = m + 1 := by
    cases n with
    | zero => cases htake
    | succ m => exact ⟨m, rfl⟩
  obtain rfl : c = d := (List.cons.inj htake).1
  rw [hapart c hc] at hd
  cases hd

/-- Words that are tried in order, none of them in front of a longer one. -/
theorem among {words : List Text}
    (hwords : words.Pairwise fun word later => ¬ word <+: later) :
    Greedy (Rule.among words) (fun _ => true)
      (fun t => (words.find? (·.isPrefixOf t)).map List.length) where
  sound := by
    intro t n h
    obtain ⟨word, hword, rfl⟩ := Option.map_eq_some_iff.mp h
    have hstart : word <+: t := List.isPrefixOf_iff_prefix.mp
      (List.find?_some (p := fun word : Text => word.isPrefixOf t) hword)
    refine ⟨hstart.length_le, ?_⟩
    rw [← List.prefix_iff_eq_take.mp hstart]
    exact List.mem_of_find?_eq_some hword
  covers := by
    intro p hp rest
    have hown : p.isPrefixOf (p ++ rest) = true :=
      List.isPrefixOf_iff_prefix.mpr (List.prefix_append p rest)
    obtain ⟨word, hword⟩ : ∃ word, words.find? (·.isPrefixOf (p ++ rest)) = some word :=
      Option.isSome_iff_exists.mp (List.find?_isSome.mpr ⟨p, hp, hown⟩)
    obtain ⟨hstart, earlier, later, rfl, hearlier⟩ := List.find?_eq_some_iff_append.mp hword
    rw [List.isPrefixOf_iff_prefix] at hstart
    refine ⟨word.length, by rw [hword, Option.map_some], covers_of_length_le ?_ hstart.length_le⟩
    -- `p` is the word that is found, or comes behind it and does not start with it
    rcases List.mem_append.mp hp with hp | hp
    · have := hearlier p hp
      rw [hown] at this
      cases this
    · rcases List.mem_cons.mp hp with rfl | hp
      · exact Nat.le_refl _
      · have hnot : ¬ word <+: p :=
          (List.pairwise_cons.mp (List.pairwise_append.mp hwords).2.1).1 p hp
        rcases List.prefix_or_prefix_of_prefix hstart (List.prefix_append p rest) with h | h
        · exact absurd h hnot
        · exact h.length_le

end Greedy

end RmdOptions.Rule
