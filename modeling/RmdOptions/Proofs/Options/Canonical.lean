import Mathlib.Data.List.Nodup
import RmdOptions.Proofs.Options.Sorted
import RmdOptions.Proofs.Panel.Commits

/-!
# The call does not show in what order the options were set

An option map remembers the order in which its options were set. A call with one option to a line
does not: its lines are in the order of the names, and no name occurs twice, so that they are
determined by the options alone. Whoever comes to the same options writes the same text.

* `OptionMap.sorted_eq_of_mem_iff` — sorting forgets the order;
* `OptionMap.pairwise_sorted` — the names increase, as their bytes do;
* `Panel.code_of_commit` — what a commit writes;
* `OptionMap.render_canonical` — **the call is determined by the options**.
-/

namespace RmdOptions

namespace OptionMap

variable {config : Config} {m n : OptionMap}

theorem nodup_entries (m : OptionMap) : m.entries.Nodup := List.Nodup.of_map _ m.nodup

/-- Maps with the same options have them in some order each. -/
theorem perm_of_mem_iff (h : ∀ entry, entry ∈ m.entries ↔ entry ∈ n.entries) :
    m.entries.Perm n.entries :=
  (List.perm_ext_iff_of_nodup m.nodup_entries n.nodup_entries).mpr h

/-! ## Sorted options -/

/-- The names of sorted options increase strictly, in the order of their bytes. -/
theorem pairwise_sorted (m : OptionMap) :
    m.sorted.entries.Pairwise fun a b => a.1.bytes < b.1.bytes := by
  have hdistinct : m.sorted.entries.Pairwise fun a b => a.1 ≠ b.1 :=
    List.pairwise_map.mp m.sorted.nodup
  refine (m.pairwise_atMost_sorted.and hdistinct).imp ?_
  rintro a b ⟨hle, hne⟩
  exact Text.bytes_lt_bytes_of_atMost hle hne

/-- Sorting forgets the order in which options were set. -/
theorem sorted_eq_of_mem_iff (h : ∀ entry, entry ∈ m.entries ↔ entry ∈ n.entries) :
    m.sorted = n.sorted := by
  have hperm : m.sorted.entries.Perm n.sorted.entries :=
    m.sorted_perm.trans ((perm_of_mem_iff h).trans n.sorted_perm.symm)
  refine ext (hperm.eq_of_pairwise (fun a b _ _ hab hba => ?_) m.pairwise_sorted n.pairwise_sorted)
  exact absurd hba (List.lt_asymm hab)

/-- The call with one option to a line. -/
theorem render_of_lt_size (h : config.singleLineMax < m.size) :
    m.render config = config.shape.head ++ ['(', '\n'] ++ config.indent ++
      ([',', '\n'] ++ config.indent).intercalate (m.sorted.entries.map argument) ++
      ['\n', ')', '\n'] := by
  have hne : ¬ m.isEmpty = true := by
    intro hempty
    rw [isEmpty, List.isEmpty_iff] at hempty
    rw [size, hempty, List.length_nil] at h
    exact Nat.not_lt_zero _ h
  rw [render, if_neg hne, if_neg (Nat.not_le_of_lt h), arguments]

end OptionMap

/-! ## What a commit writes -/

/-- A commit writes the call, on a row of its own when there was none and the header is the last
row. -/
theorem Panel.code_of_commit {panel next : Panel} {doc done : Document} {edits : Edits}
    {outcome : Outcome} (h : panel.commit doc edits = .ok (outcome, done, next)) :
    outcome.code = outcome.options.render panel.config ∨
      outcome.located = false ∧ outcome.code = '\n' :: outcome.options.render panel.config := by
  rw [commit, commitAt] at h
  split at h
  · cases h
    dsimp only
    split
    · next hfeed =>
      simp only [Bool.and_eq_true, Option.isNone_iff_eq_none] at hfeed
      exact Or.inr ⟨by rw [hfeed.1.1]; rfl, rfl⟩
    · exact Or.inl rfl
  · cases h

namespace OptionMap

/-- **The call is determined by the options.** Take two option maps with the same pairs of a name
and a value, in whatever order they were set, and more of them than fit on a line. They are written
as the same call. Its entries are these pairs, each once, and their names increase strictly in the
order of their bytes. So two commits that come to these options, whatever was edited before them and
whatever the documents hold, write the same call, but that one of them may have to start a row for
it where there was no call before. -/
theorem render_canonical (config : Config) {m n : OptionMap}
    (hsame : ∀ entry, entry ∈ m.entries ↔ entry ∈ n.entries)
    (hsize : config.singleLineMax < m.size) :
    m.render config = n.render config ∧
      (∃ entries : List (Text × Text),
        m.render config = config.shape.head ++ ['(', '\n'] ++ config.indent ++
          ([',', '\n'] ++ config.indent).intercalate (entries.map argument) ++ ['\n', ')', '\n'] ∧
        (entries.Pairwise fun a b => a.1.bytes < b.1.bytes) ∧
        (∀ entry, entry ∈ entries ↔ entry ∈ m.entries) ∧
        ∀ entry ∈ m.entries, entries.count entry = 1) ∧
      ∀ (first second first' second' : Panel) (doc₁ doc₂ doc₁' doc₂' : Document)
        (edits₁ edits₂ : Edits) (outcome₁ outcome₂ : Outcome),
        first.config = config → second.config = config →
        first.commit doc₁ edits₁ = .ok (outcome₁, doc₁', first') →
        second.commit doc₂ edits₂ = .ok (outcome₂, doc₂', second') →
        outcome₁.options = m → outcome₂.options = n →
        ∃ call,
          (outcome₁.code = call ∨ outcome₁.located = false ∧ outcome₁.code = '\n' :: call) ∧
          (outcome₂.code = call ∨ outcome₂.located = false ∧ outcome₂.code = '\n' :: call) := by
  have hsizes : m.size = n.size := (perm_of_mem_iff hsame).length_eq
  have hcall : m.render config = n.render config := by
    rw [render_of_lt_size hsize, render_of_lt_size (hsizes ▸ hsize), sorted_eq_of_mem_iff hsame]
  refine ⟨hcall, ⟨m.sorted.entries, render_of_lt_size hsize, m.pairwise_sorted, ?_, ?_⟩, ?_⟩
  · exact fun entry => m.sorted_perm.mem_iff
  · intro entry hentry
    exact List.count_eq_one_of_mem m.sorted.nodup_entries (m.sorted_perm.mem_iff.mpr hentry)
  · intro first second first' second' doc₁ doc₂ doc₁' doc₂' edits₁ edits₂ outcome₁ outcome₂
      hfirst hsecond hcommit₁ hcommit₂ hm hn
    have hcode₁ := Panel.code_of_commit hcommit₁
    have hcode₂ := Panel.code_of_commit hcommit₂
    rw [hfirst, hm] at hcode₁
    rw [hsecond, hn, ← hcall] at hcode₂
    exact ⟨m.render config, hcode₁, hcode₂⟩

/-- The options of the sample in another order. -/
def sampleShuffled : OptionMap :=
  .ofList [("echo".toList, "TRUE".toList), ("message".toList, "FALSE".toList),
    ("fig.cap".toList, "c(\"a, (b\", f(x))".toList)]

/-- Three options that were set in two orders. -/
theorem render_canonical_sample :
    sample ≠ sampleShuffled ∧
      (∀ entry, entry ∈ sample.entries ↔ entry ∈ sampleShuffled.entries) ∧
      ({} : Config).singleLineMax < sample.size ∧
      sample.render {} = sampleShuffled.render {} := by
  have hperm : sample.entries.Perm sampleShuffled.entries := by decide +kernel
  have hsize : ({} : Config).singleLineMax < sample.size := by decide
  refine ⟨by decide +kernel, fun entry => hperm.mem_iff, hsize, ?_⟩
  exact (render_canonical {} (fun entry => hperm.mem_iff) hsize).1

end OptionMap

end RmdOptions
