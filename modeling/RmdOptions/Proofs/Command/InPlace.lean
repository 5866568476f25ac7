import RmdOptions.Command.Run
import RmdOptions.Proofs.Panel.Reopen
import RmdOptions.Proofs.Text.LineEnding

/-!
# Running the command twice in place

A run knows nothing of the runs before it. It finds in the file how the rows end, which chunk is
meant, and which options that chunk sets. A run that writes the file leaves all of this as it would
leave it again, so the next run with the same arguments writes the same bytes.

* `Disk.text?_write`, `Disk.write_write` — files that are written and read;
* `Panel.ending_of_commit` — a commit does not change how rows end;
* `Arguments.run_eq_ok_iff` — what a run in place does;
* `Arguments.run_again` — **a run in place is idempotent**.
-/

namespace RmdOptions

/-! ## Files -/

namespace Disk

/-- What is written to a file is read from it. -/
theorem text?_write (disk : Disk) (path text : Text) :
    (disk.write path text).text? path = some text := by
  have hbytes : String.fromUTF8? (String.ofList text).toUTF8 = some (String.ofList text) := by
    rw [String.fromUTF8?, String.toUTF8_eq_toByteArray, dif_pos (String.ofList text).isValidUTF8]
    rfl
  rw [text?, write, Keyed.find?_put, if_pos rfl]
  dsimp only
  rw [hbytes, Option.map_some, String.toList_ofList]

/-- Writing the same text to a file once more changes nothing. -/
theorem write_write (disk : Disk) (path text : Text) :
    (disk.write path text).write path text = disk.write path text := by
  refine Keyed.put_of_find? ?_
  rw [write, Keyed.find?_put, if_pos rfl]

end Disk

/-! ## Commits -/

namespace Panel

/-- A commit does not change how the rows of the file end. -/
theorem ending_of_commit {panel panel' : Panel} {doc doc' : Document} {edits : Edits}
    {outcome : Outcome} (h : panel.commit doc edits = .ok (outcome, doc', panel')) :
    doc'.ending = doc.ending := by
  rw [commit, commitAt] at h
  cases hready : panel.baseline with
  | unrequested =>
    rw [hready] at h
    cases h
  | pending =>
    rw [hready] at h
    cases h
  | ready baseline =>
    rw [hready] at h
    cases h
    cases panel.locate doc <;> rfl

end Panel

/-! ## Runs -/

namespace Arguments

variable {arguments : Arguments} {disk : Disk} {result : RunResult}

/-- What a run in place does, when no configuration is asked for. -/
theorem run_eq_ok_iff (hconfig : arguments.config = none) (hinPlace : arguments.inPlace = true) :
    arguments.run disk = .ok result ↔
      ∃ t panel, disk.text? arguments.file = some t ∧
        Panel.openOn (.load t) arguments.chunk {} = .ok panel ∧
        if arguments.printBaseline = true then
          result = ⟨(panel.baseline.options?.getD .empty).toJson.pretty ++ ['\n'], disk⟩
        else
          ∃ outcome doc' panel',
            panel.commit (.load t) arguments.edits = .ok (outcome, doc', panel') ∧
              result = ⟨[], disk.write arguments.file doc'.saved⟩ := by
  rw [run, loadConfig, hconfig, loadFile]
  cases htext : disk.text? arguments.file with
  | none => exact ⟨nofun, nofun⟩
  | some t =>
    dsimp only [bind, Except.bind, pure, Except.pure]
    cases hopen : Panel.openOn (.load t) arguments.chunk {} with
    | error cause =>
      refine ⟨nofun, ?_⟩
      rintro ⟨_, _, ⟨⟩, hopened, -⟩
      rw [hopen] at hopened
      cases hopened
    | ok panel =>
      dsimp only [Except.mapError]
      constructor
      · intro h
        refine ⟨t, panel, rfl, hopen, ?_⟩
        split at h
        · next hprint =>
          cases h
          rw [if_pos hprint]
        · next hprint =>
          rw [if_neg hprint]
          cases hcommit : panel.commit (.load t) arguments.edits with
          | error cause =>
            rw [hcommit] at h
            cases h
          | ok written =>
            simp only [hcommit] at h
            cases h
            exact ⟨written.1, written.2.1, written.2.2, rfl, rfl⟩
      · rintro ⟨_, _, ⟨⟩, hopened, h⟩
        rw [hopen] at hopened
        cases hopened
        split at h
        · next hprint => rw [if_pos hprint, h]
        · next hprint =>
          obtain ⟨outcome, doc', panel', hcommit, rfl⟩ := h
          simp only [if_neg hprint, hcommit, hinPlace, if_true]

/-- **A run in place is idempotent.** When a run without a configuration file succeeds, there is a
panel that it has opened on the file, with a baseline. If rows of the file end in line feeds and
carriage returns only, the merged options are plain and not empty, and the call that is found, if
any, ends its row, then the next run succeeds as well, and leaves all files as they are. -/
theorem run_again (hconfig : arguments.config = none) (hinPlace : arguments.inPlace = true)
    (hrun : arguments.run disk = .ok result) :
    ∃ t panel baseline, disk.text? arguments.file = some t ∧
      Panel.openOn (.load t) arguments.chunk {} = .ok panel ∧
      panel.baseline = .ready baseline ∧
      ((∀ c ∈ t, Text.isRowBreak c = true → c = '\n' ∨ c = '\r') →
        (baseline.merge arguments.edits).IsPlain → (baseline.merge arguments.edits).entries ≠ [] →
        panel.EndsRow (.load t) →
          ∃ result', arguments.run result.disk = .ok result' ∧ result'.disk = result.disk) := by
  obtain ⟨t, panel, htext, hopen, hresult⟩ := (run_eq_ok_iff hconfig hinPlace).mp hrun
  obtain ⟨baseline, hready⟩ := Panel.ready_of_openOn hopen
  refine ⟨t, panel, baseline, htext, hopen, hready, fun hbreaks hplain hne hends => ?_⟩
  obtain ⟨outcome, doc', panel', hcommit, hfeeds', hagain⟩ := Panel.exists_reopened
    Config.isUsual_default (by decide +kernel) (Text.feedsOnly_withLineFeeds hbreaks) hopen hready
    hplain hne hends
  split at hresult
  · -- nothing has been written
    next hprint =>
    have hdisk : result.disk = disk := by rw [hresult]
    exact ⟨result, by rw [hdisk, hrun], rfl⟩
  · next hprint =>
    obtain ⟨_, written, _, hwritten, rfl⟩ := hresult
    rw [hcommit] at hwritten
    cases hwritten
    -- the file is loaded as the document that was saved
    obtain ⟨hloaded, hsaved⟩ := Document.load_saved hfeeds'.return_not_mem
    obtain ⟨reopened, hopen', -, outcome', doc'', panel'', hcommit', htext'⟩ := hagain _ hloaded
    have hsame : doc''.saved = doc'.saved := by
      rw [Document.saved, Panel.ending_of_commit hcommit', htext']
      exact hsaved
    refine ⟨⟨[], disk.write arguments.file doc'.saved⟩, ?_, rfl⟩
    refine (run_eq_ok_iff hconfig hinPlace).mpr
      ⟨doc'.saved, reopened, Disk.text?_write _ _ _, hopen', ?_⟩
    rw [if_neg hprint]
    exact ⟨outcome', doc'', panel'', hcommit', by rw [hsame, Disk.write_write]⟩

/-- A file with both kinds of row ends, in which a call is written over: the first run makes all
rows end alike, and the second finds nothing left to do. -/
theorem run_again_sample :
    let t : Text := "\x60\x60\x60\x7br\x7d\nopts_chunk$set(echo=T)\r\nx\n\x60\x60\x60\n".toList
    let arguments : Arguments :=
      { file := ['a'], edits := { echo := some falseLiteral }, inPlace := true }
    let disk : Disk := Disk.write [] ['a'] t
    ∃ result result', arguments.run disk = .ok result ∧
      result.disk.text? ['a'] = some ("\x60\x60\x60\x7br\x7d\r\n" ++
        "knitr::opts_chunk$set(echo = FALSE)\r\nx\r\n\x60\x60\x60\r\n").toList ∧
      arguments.run result.disk = .ok result' ∧ result'.disk = result.disk := by
  intro t arguments disk
  have htext : disk.text? ['a'] = some t := Disk.text?_write [] ['a'] t
  have hchoose : Chunk.choose (Chunk.ofTokens
      ((Lexer.closedBy (Config.closingFence {})).documentTokens (Document.load t).text)) none =
        .ok ⟨⟨0, 0⟩, some 3, ['r'], none⟩ := by
    decide +kernel
  obtain ⟨panel, hpanel⟩ : ∃ panel, panel = (Panel.new ⟨0, 0⟩
    (Lexer.closedBy (Config.closingFence {})).documentTokens {}).readBaseline (.load t)
      (Config.readOptions {}) := ⟨_, rfl⟩
  have hopen : Panel.openOn (.load t) arguments.chunk {} = .ok panel :=
    Panel.openOn_eq_ok_iff.mpr ⟨_, hchoose, by decide, hpanel.symm⟩
  have hready : panel.baseline = .ready (.ofList [("echo".toList, ['T'])]) := by
    rw [hpanel]
    decide +kernel
  have hplain : ((OptionMap.ofList [("echo".toList, ['T'])]).merge arguments.edits).IsPlain := by
    have hentries : ((OptionMap.ofList [("echo".toList, ['T'])]).merge arguments.edits).entries =
        [("echo".toList, falseLiteral)] := by
      decide +kernel
    intro entry hentry
    rw [hentries] at hentry
    obtain rfl := List.mem_singleton.mp hentry
    exact ⟨by decide +kernel, .word (by decide)⟩
  have hends : panel.EndsRow (.load t) := by
    intro call hcall
    have hlocate : panel.locate (.load t) = some ⟨⟨1, 0⟩, ⟨1, 22⟩, by decide⟩ := by
      rw [hpanel]
      decide +kernel
    obtain rfl := Option.some.inj (hcall.symm.trans hlocate)
    decide +kernel
  have hwritten : (panel.commit (.load t) arguments.edits).toOption.map (·.2.1.saved) =
      some ("\x60\x60\x60\x7br\x7d\r\n" ++
        "knitr::opts_chunk$set(echo = FALSE)\r\nx\r\n\x60\x60\x60\r\n").toList := by
    rw [hpanel]
    decide +kernel
  cases hcommit : panel.commit (.load t) arguments.edits with
  | error cause =>
    rw [hcommit] at hwritten
    cases hwritten
  | ok committed =>
    rw [hcommit] at hwritten
    have hsaved := Option.some.inj hwritten
    have hrun : arguments.run disk = .ok ⟨[], disk.write ['a'] committed.2.1.saved⟩ :=
      (run_eq_ok_iff rfl rfl).mpr
        ⟨t, panel, htext, hopen, committed.1, committed.2.1, committed.2.2, hcommit, rfl⟩
    obtain ⟨t', panel', baseline, htext', hopen', hready', hagain⟩ := run_again rfl rfl hrun
    obtain rfl := Option.some.inj (htext.symm.trans htext')
    obtain rfl := Except.ok.inj (hopen.symm.trans hopen')
    obtain rfl := Baseline.ready.inj (hready.symm.trans hready')
    obtain ⟨result', hrun', hdisk⟩ :=
      hagain (by decide +kernel) hplain (by decide +kernel) hends
    refine ⟨_, result', hrun, ?_, hrun', hdisk⟩
    rw [← hsaved]
    exact Disk.text?_write _ _ _

end Arguments

end RmdOptions
