import RmdOptions.Proofs.Options.Merge
import RmdOptions.Proofs.Panel.ReadBack

/-!
# Commits that are made again

A commit finds the call that an earlier one has written, from its package to the line feed behind
it, and writes the same over it. So a commit that is made again changes nothing.

* `Layout.exists_located` — where a call that was written is found;
* `Layout.surgery_written` — writing it again;
* `Panel.commit_commit` — a commit that is made twice.
-/

namespace RmdOptions

variable {config : Config} {before body after : List Text} {header : Text} {m : OptionMap}

namespace Layout

/-- **A call that was written is found from its first token to the end of its lines.** What precedes
it is what precedes the slot, and what follows it are the lines behind the slot. -/
theorem exists_located (hconfig : config.IsUsual) (hm : m.IsPlain) (hne : m.entries ≠ [])
    {above rest more : List Text} {a first : Text} {earlier : List Token}
    (hwritten : m.writtenLines config = first :: more)
    (hslot : Slot config.closingFence config.shape above a rest earlier) (hrest : rest ≠ [])
    {doc : Document} (hfeeds : doc.text.FeedsOnly)
    (hlines : doc.text.lines = before ++ header :: (above ++ (a ++ first) :: (more ++ rest)))
    (h : Layout (.closedBy config.closingFence) doc.text.lines before header
      (above ++ (a ++ first) :: (more ++ openLines config.closingFence rest)) after)
    (baseline : Baseline) :
    let panel : Panel :=
      ⟨⟨before.length, 0⟩, (Lexer.closedBy config.closingFence).documentTokens, config, baseline⟩
    ∃ call, panel.locate doc = some call ∧
      doc.text.take (doc.text.offset call.start) = Text.ended (before ++ header :: above) ++ a ∧
      doc.text.drop (doc.text.resumeAt call.stop) = Text.ofLines rest := by
  intro panel
  obtain ⟨span, hstart, hstop, hlocate⟩ := hslot.locate_eq hconfig hm hne hwritten
  refine ⟨span.down (before.length + 1), ?_, ?_, ?_⟩
  · have hheader := h.locate_header_eq_locate_code config.shape
    rw [hlocate] at hheader
    exact hheader
  · have hplace : (span.down (before.length + 1)).start =
        ⟨(before ++ header :: above).length, a.length⟩ := by
      rw [Span.down_start, hstart, Position.down]
      simp only [List.length_append, List.length_cons]
      congr 1
      omega
    have hsplit : doc.text.lines =
        (before ++ header :: above) ++ (a ++ first) :: (more ++ rest) := by
      rw [hlines]
      simp
    rw [hplace, Text.take_offset_of_lines hfeeds hsplit]
  · -- the last line of the call ends with it
    obtain ⟨front, last, hlast⟩ : ∃ front last, (a ++ first) :: more = front ++ [last] :=
      ⟨_, _, (List.dropLast_concat_getLast (List.cons_ne_nil _ more)).symm⟩
    have hplace : (span.down (before.length + 1)).stop =
        ⟨(before ++ header :: (above ++ front)).length, last.length⟩ := by
      rw [Span.down_stop, hstop, hlast, lastPlace_append _ (List.cons_ne_nil _ _), lastPlace,
        Position.down]
      simp only [List.length_append, List.length_cons]
      congr 1
      omega
    have hsplit : doc.text.lines =
        (before ++ header :: (above ++ front)) ++ (last ++ []) :: rest := by
      have hcall : (a ++ first) :: (more ++ rest) = front ++ [last] ++ rest :=
        congrArg (· ++ rest) hlast
      rw [hlines, hcall]
      simp
    rw [hplace, Text.drop_resumeAt hfeeds hsplit, resumedLines, if_pos ⟨rfl, hrest⟩]

/-- **Writing a call again over itself leaves the text.** -/
theorem surgery_written (hconfig : config.IsUsual) {doc doc' : Document}
    (h : Layout (.closedBy config.closingFence) doc.text.lines before header body after)
    (hfeeds : doc.text.FeedsOnly) (baseline baseline' : Baseline) (hm : m.IsPlain)
    (hne : m.entries ≠ []) :
    let tokenize := (Lexer.closedBy config.closingFence).documentTokens
    let panel : Panel := ⟨⟨before.length, 0⟩, tokenize, config, baseline⟩
    let panel' : Panel := ⟨⟨before.length, 0⟩, tokenize, config, baseline'⟩
    doc'.text = (panel.surgery doc (m.render config)).text →
      doc'.text.FeedsOnly ∧
        (∃ body after,
          Layout (.closedBy config.closingFence) doc'.text.lines before header body after) ∧
        (panel'.locate doc').isSome = true ∧
        (panel'.surgery doc' (m.render config)).text = doc'.text := by
  intro tokenize panel panel' hdoc'
  obtain ⟨first, more, hwritten⟩ := List.exists_cons_of_ne_nil (m.writtenLines_ne_nil config)
  obtain ⟨above, a, rest, earlier, hslot, hrest, -, hfeeds', hlines, hlayout⟩ :=
    h.exists_written hconfig hfeeds baseline hm hne hwritten hdoc'
  obtain ⟨call, hlocate, htake, hdrop⟩ := exists_located hconfig hm hne hwritten hslot hrest hfeeds'
    hlines hlayout baseline'
  have hlocate : panel'.locate doc' = some call := hlocate
  refine ⟨hfeeds', ⟨_, _, hlayout⟩, by rw [hlocate]; rfl, ?_⟩
  have hsplit : before ++ header :: (above ++ (a ++ first) :: (more ++ rest)) =
      (before ++ header :: above ++ (a ++ first) :: more) ++ rest := by
    simp
  simp only [Panel.surgery, hlocate, Surgery.text]
  rw [htake, hdrop, OptionMap.render_eq config hne, hwritten, ← Text.ofLines_lines doc'.text,
    hlines, hsplit, Text.ofLines_append _ hrest]
  simp

end Layout

namespace Panel

/-- **A commit that is made again changes nothing.** After plain options have been committed, making
the same commit once more finds the call, leaves the text and has the same options. -/
theorem commit_commit {doc : Document} (hfeeds : doc.text.FeedsOnly) {chunk : Chunk}
    (hchunk : chunk ∈ Chunk.ofTokens
      ((Lexer.closedBy (Config.closingFence {})).documentTokens doc.text))
    (baseline : OptionMap) (edits : Edits) (hplain : (baseline.merge edits).IsPlain)
    (hne : (baseline.merge edits).entries ≠ []) :
    let config : Config := {}
    let tokenize := (Lexer.closedBy config.closingFence).documentTokens
    let panel : Panel := ⟨chunk.header, tokenize, config, .ready baseline⟩
    ∃ outcome doc' panel', panel.commit doc edits = .ok (outcome, doc', panel') ∧
      ∃ outcome' doc'' panel'', panel'.commit doc' edits = .ok (outcome', doc'', panel'') ∧
        doc''.text = doc'.text ∧ outcome'.located = true ∧ outcome'.options = outcome.options := by
  obtain ⟨before, header, body, after, hlayout, hheader, -⟩ := exists_layout hchunk
  rw [hheader]
  intro config tokenize panel
  obtain ⟨outcome, doc', panel', hcommit, htext, -⟩ :=
    hlayout.commit_eq_surgery hfeeds config baseline edits
  obtain ⟨hoptions, -, rfl⟩ := outcome_of_commit rfl hcommit
  have hfeed : ((baseline.merge edits).render config).withLineFeeds =
      (baseline.merge edits).render config :=
    hplain.withLineFeeds_render Config.isPlain_default hne
  rw [hfeed] at htext
  obtain ⟨hfeeds', ⟨body', after', hlayout'⟩, hlocated, hagain⟩ := hlayout.surgery_written
    Config.isUsual_default hfeeds (.ready baseline) (.ready (baseline.merge edits)) hplain hne htext
  obtain ⟨outcome', doc'', panel'', hcommit', htext', -⟩ :=
    hlayout'.commit_eq_surgery hfeeds' config (baseline.merge edits) edits
  obtain ⟨hoptions', hlocated', -⟩ := outcome_of_commit rfl hcommit'
  rw [OptionMap.merge_merge] at htext' hoptions'
  rw [hfeed] at htext'
  refine ⟨outcome, doc', _, hcommit, outcome', doc'', panel'', hcommit', htext'.trans hagain, ?_,
    hoptions'.trans hoptions.symm⟩
  rw [hlocated']
  exact hlocated

/-- Between other code on its row, a call is written twice like once. -/
theorem commit_commit_sample :
    let tokenize := (Lexer.closedBy (Config.closingFence {})).documentTokens
    let panel : Panel := ⟨⟨0, 0⟩, tokenize, {}, .ready .empty⟩
    ∃ outcome doc' panel' outcome' doc'' panel'',
      panel.commit Document.sample { echo := some falseLiteral } = .ok (outcome, doc', panel') ∧
        panel'.commit doc' { echo := some falseLiteral } = .ok (outcome', doc'', panel'') ∧
        doc'.text =
          "\x60\x60\x60{r}\nx; knitr::opts_chunk$set(echo = FALSE)\n # y\n\x60\x60\x60".toList ∧
        doc''.text = doc'.text ∧ outcome'.located = true := by
  intro tokenize panel
  have hfeeds : Document.sample.text.FeedsOnly := by decide +kernel
  have hchunk : (⟨⟨0, 0⟩, some 2, ['r'], none⟩ : Chunk) ∈
      Chunk.ofTokens (tokenize Document.sample.text) := by
    decide +kernel
  obtain ⟨outcome, doc', panel', hcommit, outcome', doc'', panel'', hcommit', htext, hlocated, -⟩ :=
    commit_commit hfeeds hchunk .empty { echo := some falseLiteral }
      Edits.isPlain_echoOff (by decide +kernel)
  have hfirst : (panel.commit Document.sample { echo := some falseLiteral }).toOption.map
      (·.2.1.text) = some
        "\x60\x60\x60{r}\nx; knitr::opts_chunk$set(echo = FALSE)\n # y\n\x60\x60\x60".toList := by
    decide +kernel
  have hdoc' : (panel.commit Document.sample { echo := some falseLiteral }).toOption.map
      (·.2.1.text) = some doc'.text :=
    congrArg (·.toOption.map (·.2.1.text)) hcommit
  exact ⟨outcome, doc', panel', outcome', doc'', panel'', hcommit, hcommit',
    Option.some.inj (hdoc'.symm.trans hfirst), htext, hlocated⟩

end Panel

end RmdOptions
