import RmdOptions.Proofs.Options.Writers
import RmdOptions.Proofs.Panel.Session

/-!
# Commits that follow one another

Once the baseline of a panel is known, every commit succeeds and merges its edits into what the
commit before it has left, whatever the document looks like by then. So the edits of a whole session
come together as if they had been merged with no document at all, and the call that was written last
sets what they come to.

* `Baseline.foldl_after_commit` — the baseline after several commits;
* `OptionMap.merge_of_forall_not_addresses` — an edit that says nothing;
* `Document.row_pointAt_none` — when the call goes on a new row;
* `Panel.commit_seed` — what a commit tells;
* `Panel.Session.run_commits` — the options and the code after several commits.
-/

namespace RmdOptions

/-- A baseline that is known is edited by every commit. -/
theorem Baseline.foldl_after_commit (m : OptionMap) (es : List Edits) :
    (es.map Panel.Operation.commit).foldl after (.ready m) =
      .ready (es.foldl OptionMap.merge m) := by
  induction es generalizing m with
  | nil => rfl
  | cons edits es ih => exact ih (m.merge edits)

namespace OptionMap

/-- An edit that addresses no option changes nothing. -/
theorem merge_of_forall_not_addresses (m : OptionMap) {edits : Edits}
    (h : ∀ key, ¬ edits.Addresses key) : m.merge edits = m := by
  refine insertAll_of_get? fun pair hpair => ?_
  exact absurd ⟨pair.2, Edits.mem_writes_iff.mp hpair⟩ (h pair.1)

/-- Nothing is written only when there are no options. -/
theorem isEmpty_render (config : Config) (m : OptionMap) :
    (m.render config).isEmpty = m.isEmpty := by
  rw [render]
  split
  · next h => rw [h, List.isEmpty_nil]
  · next h =>
    rw [Bool.not_eq_true] at h
    rw [h]
    split <;> simp

end OptionMap

/-- With no call, the caret goes to a row below the header, unless the header is the last row. -/
theorem Document.row_pointAt_none (doc : Document) (header : Position) :
    (doc.pointAt none header).selectedSpan.start.row = header.row ↔
      header.row + 1 = doc.text.rowCount := by
  have hrow : (doc.pointAt none header).selectedSpan.start.row =
      min (doc.bodyStart header).row (doc.text.rowCount - 1) := rfl
  have hpos : 0 < doc.text.rowCount := List.length_pos_iff.mpr (Text.rows_ne_nil doc.text)
  rw [hrow, bodyStart]
  split
  · next hbelow =>
    simp only [Position.startOfNextRow]
    omega
  · next hlast =>
    dsimp only
    omega

namespace Panel

/-- **What a commit tells** when the baseline is known: what the options are, whether there was a
call, and the code that was written. That is the call, on a row of its own when there was none and
the header is the last row. -/
theorem commit_seed (panel : Panel) (m : OptionMap) (doc : Document) (edits : Edits) :
    ∃ outcome doc', (panel.seed m).commit doc edits =
        .ok (outcome, doc', panel.seed (m.merge edits)) ∧
      outcome.options = m.merge edits ∧ outcome.located = (panel.locate doc).isSome ∧
      outcome.code =
        if panel.locate doc = none ∧ panel.chunkStart.row + 1 = doc.text.rowCount ∧
            (m.merge edits).isEmpty = false
          then '\n' :: (m.merge edits).render panel.config
          else (m.merge edits).render panel.config := by
  have hcommit : (panel.seed m).commit doc edits =
      (panel.seed m).commitAt (panel.locate doc) doc edits := rfl
  have hempty := (m.merge edits).isEmpty_render panel.config
  have hrow := doc.row_pointAt_none panel.chunkStart
  rw [hcommit]
  cases panel.locate doc with
  | some call =>
    refine ⟨_, _, rfl, rfl, rfl, ?_⟩
    simp [seed]
  | none =>
    refine ⟨_, _, rfl, rfl, rfl, ?_⟩
    simp [seed, hempty, hrow]

namespace Session

/-- Commits change nothing of a panel but its baseline, which they edit. -/
theorem panel_run_commits (panel : Panel) (m : OptionMap) (doc : Document) (es : List Edits) :
    ((⟨panel.seed m, doc⟩ : Session).run (es.map .commit)).panel =
      panel.seed (es.foldl OptionMap.merge m) := by
  rw [panel_run]
  simp only [seed, Baseline.foldl_after_commit]

/-- **The last writer wins over a whole session.** Some edits are committed one after another, on
any document, from a baseline that is known, and `last` is the last of them. None is refused. The
options are then these:

* each has the value that the last edit to address it writes, or that of the baseline if none does;
* their names are those of the baseline, in its order, and then what each edit has introduced, in
  the order of the edits and for each in the order of the form. None occurs twice, and none of those
  from before the last commit is gone.

The last commit writes them, on a row of its own when there is no call and the header is the last
row. If it makes the edit of the commit before it once more, or an edit that addresses nothing, the
options are what they were. -/
theorem run_commits (panel : Panel) (baseline : OptionMap) (doc : Document) (es : List Edits)
    (last : Edits) :
    let session := (⟨panel.seed baseline, doc⟩ : Session).run (es.map .commit)
    ∃ known options outcome doc' panel',
      session.panel.baseline = .ready known ∧
      session.panel.commit session.doc last = .ok (outcome, doc', panel') ∧
      session.step (.commit last) = ⟨panel', doc'⟩ ∧
      panel'.baseline = .ready options ∧
      (∀ key value, options.get? key = some value ↔
        LastWrites (es ++ [last]) key value ∨
          baseline.get? key = some value ∧ ∀ edits ∈ es ++ [last], ¬ edits.Addresses key) ∧
      (∃ introduced : List (List Text), options.keys = baseline.keys ++ introduced.flatten ∧
        introduced.length = (es ++ [last]).length ∧
        ∀ (i : Nat) (edits : Edits) (new : List Text), (es ++ [last])[i]? = some edits →
          introduced[i]? = some new → edits.Introduces
            (fun key => key ∈ baseline.keys ∨
              ∃ earlier ∈ (es ++ [last]).take i, earlier.Addresses key) new) ∧
      options.keys.Nodup ∧ known.keys <+: options.keys ∧
      (es.getLast? = some last ∨ (∀ key, ¬ last.Addresses key) → options = known) ∧
      outcome.options = options ∧
      outcome.code =
        if session.panel.locate session.doc = none ∧
            panel.chunkStart.row + 1 = session.doc.text.rowCount ∧ options.isEmpty = false
          then '\n' :: options.render panel.config else options.render panel.config := by
  intro session
  have hpanel : session.panel = panel.seed (es.foldl OptionMap.merge baseline) :=
    panel_run_commits panel baseline doc es
  have hfold : (es.foldl OptionMap.merge baseline).merge last =
      (es ++ [last]).foldl OptionMap.merge baseline := by
    rw [List.foldl_append]
    rfl
  obtain ⟨outcome, doc', hcommit, hoptions, -, hcode⟩ :=
    panel.commit_seed (es.foldl OptionMap.merge baseline) session.doc last
  rw [hfold] at hcommit hoptions hcode
  rw [← hpanel] at hcommit
  refine ⟨es.foldl OptionMap.merge baseline, (es ++ [last]).foldl OptionMap.merge baseline, outcome,
    doc', _, ?_, hcommit, ?_, rfl, ?_, ?_, ?_, ?_, ?_, hoptions, ?_⟩
  · rw [hpanel]
    rfl
  · rw [step, hcommit]
  · exact baseline.get?_foldl_merge (es ++ [last])
  · exact baseline.exists_keys_foldl_merge (es ++ [last])
  · exact OptionMap.nodup _
  · obtain ⟨new, hkeys, -⟩ := (es.foldl OptionMap.merge baseline).exists_keys_merge last
    rw [← hfold, hkeys]
    exact List.prefix_append _ _
  · rintro (hagain | hnothing)
    · obtain ⟨earlier, rfl⟩ := List.getLast?_eq_some_iff.mp hagain
      rw [← hfold, List.foldl_append]
      exact OptionMap.merge_merge _ last
    · rw [← hfold]
      exact OptionMap.merge_of_forall_not_addresses _ hnothing
  · rw [hcode, hpanel]
    rfl

end Session

end Panel

end RmdOptions
