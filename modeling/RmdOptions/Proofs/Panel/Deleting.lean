import Mathlib.Data.Nat.Find
import Mathlib.Data.Nat.Init
import RmdOptions.Proofs.Options.Merge
import RmdOptions.Proofs.Panel.Frame
import RmdOptions.Proofs.Panel.Header
import RmdOptions.Proofs.Panel.Surface

/-!
# Deleting calls

A commit that leaves no options deletes the call that is found, and writes nothing when there is
none. Each commit looks for a call anew. So the same commit may delete another call, which had no
part in the options: the text stays exactly when there is no call left. As every call that is
deleted makes the text shorter, this comes about in the end.

* `Panel.withoutCall` — what a commit leaves when there are no options;
* `Headed.length_withoutCall_lt`, `Headed.withoutCall_eq_self_iff` — the text gets shorter, or else
  there is no call;
* `Panel.commit_deleting` — **two commits in a row**;
* `Panel.Session.exists_no_call_left` — as many commits as it takes.
-/

namespace RmdOptions

/-- A text whose characters are those of another one has no other row breaks. -/
theorem Text.FeedsOnly.of_subset {t u : Text} (h : t.FeedsOnly) (hu : u ⊆ t) : u.FeedsOnly :=
  fun c hc => h c (hu hc)

/-- A text without the call of the chunk and the line feed right behind it. -/
def Panel.withoutCall (panel : Panel) (t : Text) : Text :=
  match panel.locateIn t with
  | some call => t.take (t.offset call.start) ++ t.drop (t.resumeAt call.stop)
  | none => t

namespace Panel

variable {panel : Panel} {t : Text}

theorem withoutCall_of_some {call : Span} (h : panel.locateIn t = some call) :
    panel.withoutCall t = t.take (t.offset call.start) ++ t.drop (t.resumeAt call.stop) := by
  rw [withoutCall, h]

theorem withoutCall_of_none (h : panel.locateIn t = none) : panel.withoutCall t = t := by
  rw [withoutCall, h]

theorem withoutCall_subset (panel : Panel) (t : Text) : panel.withoutCall t ⊆ t := by
  intro c hc
  rw [withoutCall] at hc
  split at hc
  · rcases List.mem_append.mp hc with hc | hc
    · exact List.mem_of_mem_take hc
    · exact List.mem_of_mem_drop hc
  · exact hc

end Panel

/-! ## Deleting a call -/

namespace Layout

variable {lexer : Lexer} {before body after : List Text} {header t : Text}

/-- Writing nothing over the call deletes it. -/
theorem surgery_text_nil {doc : Document}
    (h : Layout lexer doc.text.lines before header body after) (hfeeds : doc.text.FeedsOnly)
    {panel : Panel} (hchunk : panel.chunkStart = ⟨before.length, 0⟩) :
    (panel.surgery doc []).text = panel.withoutCall doc.text := by
  cases hlocate : panel.locate doc with
  | some call =>
    rw [Panel.withoutCall_of_some hlocate]
    simp only [Panel.surgery, hlocate, Surgery.text, List.append_nil]
  | none =>
    rw [h.surgery_text_of_none hfeeds hchunk hlocate, if_pos rfl,
      Panel.withoutCall_of_none hlocate]

/-- In a text with line feeds only, the lines up to the header are rows. -/
theorem headed (h : Layout lexer t.lines before header body after) (hfeeds : t.FeedsOnly) :
    Headed lexer before header t := by
  have hlines : t.lines = before ++ [header] ++ (body ++ after) := by
    rw [h.lines_eq, List.append_assoc, List.singleton_append]
  refine ⟨fun line hline => hfeeds.unbroken ?_, h.prose, h.opens, ?_⟩
  · rw [hlines]
    exact List.mem_append_left _ hline
  · rw [hlines]
    exact List.prefix_append _ _

/-- A call has at least its closing bracket. -/
theorem offset_lt_of_locate (h : Layout lexer t.lines before header body after)
    (hfeeds : t.FeedsOnly) {shape : CallShape} {call : Span}
    (hlocate : (locate shape (Cursor.on (lexer.documentTokens t) ⟨before.length, 0⟩)).1 =
      some call) : t.offset call.start < t.offset call.stop := by
  obtain ⟨-, -, close, -, -, hclose, -, -, -, -, hsuffix⟩ := h.holdsCall hfeeds hlocate
  rw [(Token.is_iff.mp hclose).2] at hsuffix
  have hlength := hsuffix.length_le
  rw [Text.slice, List.length_take, List.length_singleton] at hlength
  omega

end Layout

namespace Headed

variable {lexer : Lexer} {before : List Text} {header : Text} {doc : Document} {panel : Panel}

/-- A text that has a call gets shorter when the call is deleted. -/
theorem length_withoutCall_lt {t : Text} (h : Headed lexer before header t) (hfeeds : t.FeedsOnly)
    (hchunk : panel.chunkStart = ⟨before.length, 0⟩)
    (htokenize : panel.tokenize = lexer.documentTokens) (hcall : panel.locateIn t ≠ none) :
    (panel.withoutCall t).length < t.length := by
  obtain ⟨call, hlocate⟩ := Option.ne_none_iff_exists'.mp hcall
  rw [Panel.withoutCall_of_some hlocate]
  obtain ⟨body, after, hlayout⟩ := h.exists_layout
  rw [Panel.locateIn, hchunk, htokenize] at hlocate
  have hlt := hlayout.offset_lt_of_locate hfeeds hlocate
  have hle := t.offset_le_length call.stop
  have hresume : t.offset call.stop ≤ t.resumeAt call.stop := by
    rw [Text.resumeAt]
    split
    · exact Nat.le_succ _
    · exact Nat.le_refl _
  rw [List.length_append, List.length_take, List.length_drop]
  omega

/-- **The text stays exactly when there is no call.** -/
theorem withoutCall_eq_self_iff {t : Text} (h : Headed lexer before header t) (hfeeds : t.FeedsOnly)
    (hchunk : panel.chunkStart = ⟨before.length, 0⟩)
    (htokenize : panel.tokenize = lexer.documentTokens) :
    panel.withoutCall t = t ↔ panel.locateIn t = none := by
  constructor
  · intro hsame
    by_contra hcall
    have hlt := h.length_withoutCall_lt hfeeds hchunk htokenize hcall
    rw [hsame] at hlt
    exact Nat.lt_irrefl _ hlt
  · exact Panel.withoutCall_of_none

/-- **A commit that leaves no options deletes the call.** -/
theorem commit_of_nil (h : Headed lexer before header doc.text) (hfeeds : doc.text.FeedsOnly)
    (config : Config) (baseline : OptionMap) (edits : Edits)
    (hnil : (baseline.merge edits).entries = []) :
    let panel : Panel := ⟨⟨before.length, 0⟩, lexer.documentTokens, config, .ready baseline⟩
    ∃ outcome doc',
      panel.commit doc edits = .ok (outcome, doc', panel.seed (baseline.merge edits)) ∧
        doc'.text = panel.withoutCall doc.text ∧ doc'.text.FeedsOnly ∧
        Headed lexer before header doc'.text := by
  intro panel
  obtain ⟨body, after, hlayout⟩ := h.exists_layout
  obtain ⟨outcome, doc', panel', hcommit, htext, -⟩ :=
    hlayout.commit_eq_surgery hfeeds config baseline edits
  rw [Panel.render_eq_nil config hnil] at htext
  obtain ⟨-, -, rfl⟩ := Panel.outcome_of_commit rfl hcommit
  have hdeleted := htext.trans (hlayout.surgery_text_nil hfeeds rfl)
  refine ⟨outcome, doc', hcommit, hdeleted, ?_, h.commit rfl rfl hcommit⟩
  rw [hdeleted]
  exact hfeeds.of_subset (panel.withoutCall_subset doc.text)

end Headed

namespace Panel

/-- **Two commits that leave no options.** Each of them deletes the call that it finds. The second
one leaves the text of the first exactly when the first has left no call in the chunk; otherwise it
deletes that call too, whatever its arguments are. -/
theorem commit_deleting (lexer : Lexer) (config : Config) {doc : Document}
    (hfeeds : doc.text.FeedsOnly) {chunk : Chunk}
    (hchunk : chunk ∈ Chunk.ofTokens (lexer.documentTokens doc.text)) (baseline : OptionMap)
    (edits : Edits) (hnil : (baseline.merge edits).entries = []) :
    let panel : Panel := ⟨chunk.header, lexer.documentTokens, config, .ready baseline⟩
    ∃ outcome doc' panel' outcome' doc'' panel'',
      panel.commit doc edits = .ok (outcome, doc', panel') ∧
        panel'.commit doc' edits = .ok (outcome', doc'', panel'') ∧
        doc'.text = panel.withoutCall doc.text ∧
        doc''.text = panel'.withoutCall doc'.text ∧
        (doc''.text = doc'.text ↔ panel'.locate doc' = none) := by
  obtain ⟨before, header, body, after, hlayout, hheader, -⟩ := exists_layout hchunk
  rw [hheader]
  intro panel
  obtain ⟨outcome, doc', hcommit, htext, hfeeds', hheaded⟩ :=
    (hlayout.headed hfeeds).commit_of_nil hfeeds config baseline edits hnil
  have hnil' : ((baseline.merge edits).merge edits).entries = [] := by
    rw [OptionMap.merge_merge, hnil]
  obtain ⟨outcome', doc'', hcommit', htext', -⟩ :=
    hheaded.commit_of_nil hfeeds' config (baseline.merge edits) edits hnil'
  refine ⟨outcome, doc', _, outcome', doc'', _, hcommit, hcommit', htext, htext', ?_⟩
  rw [htext']
  exact hheaded.withoutCall_eq_self_iff hfeeds' rfl rfl

end Panel

/-- A document with one chunk, with a call without arguments, and another one in a comment. -/
def Document.commented : Document :=
  Document.load
    "\x60\x60\x60{r}\nx; opts_chunk$set() # opts_chunk$set(a = 1)\n\x60\x60\x60\n".toList

/-- What is told of a result that there is tells that there is one. -/
theorem exists_eq_ok_of_map {ε α β : Type} {x : Except ε α} {f : α → β} {b : β}
    (h : x.toOption.map f = some b) : ∃ a, x = .ok a ∧ f a = b := by
  cases x with
  | error e => cases h
  | ok a => exact ⟨a, rfl, Option.some.inj h⟩

namespace Panel

/-- What stands in a comment is no call, and stays. -/
theorem commit_deleting_comment :
    let tokenize := (Lexer.closedBy ['\x60', '\x60', '\x60']).documentTokens
    let panel : Panel := ⟨⟨0, 0⟩, tokenize, {}, .ready .empty⟩
    ∃ outcome doc' panel' outcome' doc'' panel'',
      panel.commit Document.commented {} = .ok (outcome, doc', panel') ∧
        panel'.commit doc' {} = .ok (outcome', doc'', panel'') ∧
        doc'.text =
          "\x60\x60\x60{r}\nx;  # opts_chunk$set(a = 1)\n\x60\x60\x60\n".toList ∧
        doc''.text = doc'.text := by
  intro tokenize panel
  have hfeeds : Document.commented.text.FeedsOnly := by decide +kernel
  have hchunk : (⟨⟨0, 0⟩, some 2, ['r'], none⟩ : Chunk) ∈
      Chunk.ofTokens (tokenize Document.commented.text) := by
    decide +kernel
  obtain ⟨outcome, doc', panel', outcome', doc'', panel'', hcommit, hcommit', htext, -, hstays⟩ :=
    commit_deleting _ {} hfeeds hchunk .empty {} rfl
  have hdeleted : panel.withoutCall Document.commented.text =
      "\x60\x60\x60{r}\nx;  # opts_chunk$set(a = 1)\n\x60\x60\x60\n".toList := by
    decide +kernel
  have hnone : (panel.commit Document.commented {}).toOption.map
      (fun result => result.2.2.locate result.2.1) = some none := by
    decide +kernel
  have hlocate : (panel.commit Document.commented {}).toOption.map
      (fun result => result.2.2.locate result.2.1) = some (panel'.locate doc') :=
    congrArg (·.toOption.map fun result => result.2.2.locate result.2.1) hcommit
  exact ⟨outcome, doc', panel', outcome', doc'', panel'', hcommit, hcommit', htext.trans hdeleted,
    hstays.mpr (Option.some.inj (hlocate.symm.trans hnone))⟩

/-- Of two calls the first has no arguments, and so the chunk is opened with no options. The first
commit deletes this call, and the second one the other, which has an argument. -/
theorem commit_deleting_next :
    let doc := Document.load
      "\x60\x60\x60{r}\nopts_chunk$set()\nopts_chunk$set(a = 1)\n\x60\x60\x60\n".toList
    ∃ panel outcome doc' panel' outcome' doc'' panel'',
      openOn doc none {} = .ok panel ∧ panel.baseline = .ready .empty ∧
        panel.commit doc {} = .ok (outcome, doc', panel') ∧
        panel'.commit doc' {} = .ok (outcome', doc'', panel'') ∧
        doc'.text = "\x60\x60\x60{r}\nopts_chunk$set(a = 1)\n\x60\x60\x60\n".toList ∧
        doc''.text = "\x60\x60\x60{r}\n\x60\x60\x60\n".toList ∧ doc''.text ≠ doc'.text := by
  intro doc
  have hopen : (openOn doc none {}).toOption.map (fun panel => (panel.baseline,
      (panel.commit doc {}).toOption.map fun first => (first.2.1.text,
        (first.2.2.commit first.2.1 {}).toOption.map fun second => second.2.1.text))) =
      some (.ready .empty, some ("\x60\x60\x60{r}\nopts_chunk$set(a = 1)\n\x60\x60\x60\n".toList,
        some "\x60\x60\x60{r}\n\x60\x60\x60\n".toList)) := by
    decide +kernel
  obtain ⟨panel, hpanel, hresult⟩ := exists_eq_ok_of_map hopen
  obtain ⟨hbaseline, hcommit⟩ := Prod.mk.inj hresult
  obtain ⟨⟨outcome, doc', panel'⟩, hfirst, hresult'⟩ := exists_eq_ok_of_map hcommit
  obtain ⟨htext, hcommit'⟩ := Prod.mk.inj hresult'
  obtain ⟨⟨outcome', doc'', panel''⟩, hsecond, htext'⟩ := exists_eq_ok_of_map hcommit'
  refine ⟨panel, outcome, doc', panel', outcome', doc'', panel'', hpanel, hbaseline, hfirst,
    hsecond, htext, htext', ?_⟩
  rw [htext, htext']
  decide +kernel

end Panel

/-! ## Deleting call after call -/

namespace Panel

namespace Session

variable {lexer : Lexer} {before : List Text} {header : Text} {session : Session} {edits : Edits}

/-- A session on the chunk with a header, in which an edit leaves no options. -/
structure Deletes (lexer : Lexer) (before : List Text) (header : Text) (edits : Edits)
    (session : Session) : Prop where
  /-- the panel is on the chunk, and the document has the header -/
  headedBy : session.HeadedBy lexer before header
  /-- the document has line feeds only -/
  feedsOnly : session.doc.text.FeedsOnly
  /-- with the edit, there are no options -/
  nil : ∃ baseline, session.panel.baseline = .ready baseline ∧ (baseline.merge edits).entries = []

/-- Committing the edit deletes the call, and it goes on leaving no options. -/
theorem Deletes.step (h : session.Deletes lexer before header edits) :
    (session.step (.commit edits)).doc.text = session.panel.withoutCall session.doc.text ∧
      (session.step (.commit edits)).Deletes lexer before header edits := by
  have hheadedBy := h.headedBy.step (.commit edits)
  obtain ⟨⟨chunkStart, tokenize, config, _⟩, doc⟩ := session
  obtain ⟨⟨rfl, rfl, hheaded⟩, hfeeds, baseline, rfl, hnil⟩ := h
  obtain ⟨outcome, doc', hcommit, htext, hfeeds', -⟩ :=
    hheaded.commit_of_nil hfeeds config baseline edits hnil
  have hstep : (⟨⟨⟨before.length, 0⟩, lexer.documentTokens, config, .ready baseline⟩, doc⟩ :
      Session).step (.commit edits) =
        ⟨⟨⟨before.length, 0⟩, lexer.documentTokens, config, .ready (baseline.merge edits)⟩,
          doc'⟩ := by
    simp only [Session.step, hcommit]
    rfl
  rw [hstep] at hheadedBy ⊢
  refine ⟨htext, hheadedBy, hfeeds', _, rfl, ?_⟩
  rw [OptionMap.merge_merge, hnil]

/-- The session after an edit has been committed several times. -/
def runCommits (session : Session) (edits : Edits) (n : Nat) : Session :=
  session.run (List.replicate n (.commit edits))

@[simp] theorem runCommits_zero (session : Session) (edits : Edits) :
    session.runCommits edits 0 = session := rfl

theorem runCommits_succ (session : Session) (edits : Edits) (n : Nat) :
    session.runCommits edits (n + 1) = (session.runCommits edits n).step (.commit edits) := by
  rw [runCommits, List.replicate_succ', run_append, runCommits]

theorem Deletes.runCommits (h : session.Deletes lexer before header edits) (n : Nat) :
    (session.runCommits edits n).Deletes lexer before header edits := by
  induction n with
  | zero => exact h
  | succ n ih =>
    rw [runCommits_succ]
    exact ih.step.2

/-- With no call left, committing once more leaves the text. -/
theorem Deletes.step_of_none (h : session.Deletes lexer before header edits)
    (hnone : session.panel.locate session.doc = none) :
    (session.step (.commit edits)).doc.text = session.doc.text ∧
      (session.step (.commit edits)).panel.locate (session.step (.commit edits)).doc = none := by
  have htext : (session.step (.commit edits)).doc.text = session.doc.text := by
    rw [h.step.1, withoutCall_of_none hnone]
  refine ⟨htext, ?_⟩
  rw [panel_step, locate, htext]
  exact hnone

/-- While there are calls, every commit makes the text shorter. -/
theorem Deletes.length_add_le (h : session.Deletes lexer before header edits) {n : Nat}
    (hcalls : ∀ m < n, (session.runCommits edits m).panel.locate
      (session.runCommits edits m).doc ≠ none) :
    (session.runCommits edits n).doc.text.length + n ≤ session.doc.text.length := by
  induction n with
  | zero => exact Nat.le_refl _
  | succ n ih =>
    have hn := h.runCommits n
    have hle := ih fun m hm => hcalls m (Nat.lt_succ_of_lt hm)
    have hlt := hn.headedBy.headed.length_withoutCall_lt hn.feedsOnly hn.headedBy.chunkStart
      hn.headedBy.tokenize (hcalls n (Nat.lt_succ_self n))
    rw [runCommits_succ, hn.step.1]
    omega

/-- **In the end no call is left.** An edit that leaves no options is committed again and again. For
a while, no longer than there are characters, every commit finds a call and makes the text shorter.
From then on there is no call, and the text stays. -/
theorem exists_no_call_left (lexer : Lexer) (config : Config) {doc : Document}
    (hfeeds : doc.text.FeedsOnly) {chunk : Chunk}
    (hchunk : chunk ∈ Chunk.ofTokens (lexer.documentTokens doc.text)) (baseline : OptionMap)
    (edits : Edits) (hnil : (baseline.merge edits).entries = []) :
    let session := (⟨⟨chunk.header, lexer.documentTokens, config, .ready baseline⟩, doc⟩ :
      Session).runCommits edits
    ∃ n ≤ doc.text.length,
      (∀ m < n, (session m).panel.locate (session m).doc ≠ none) ∧
        ∀ m ≥ n, (session m).panel.locate (session m).doc = none ∧
          (session m).doc.text = (session n).doc.text := by
  obtain ⟨before, header, body, after, hlayout, hheader, -⟩ := exists_layout hchunk
  rw [hheader]
  intro session
  have hdeletes : (⟨⟨⟨before.length, 0⟩, lexer.documentTokens, config, .ready baseline⟩, doc⟩ :
      Session).Deletes lexer before header edits :=
    ⟨⟨rfl, rfl, hlayout.headed hfeeds⟩, hfeeds, baseline, rfl, hnil⟩
  have hends : ∃ n, (session n).panel.locate (session n).doc = none := by
    by_contra hnever
    have hle := hdeletes.length_add_le (n := doc.text.length + 1) fun m _ hm => hnever ⟨m, hm⟩
    dsimp only at hle
    omega
  have hcalls : ∀ m < Nat.find hends, (session m).panel.locate (session m).doc ≠ none :=
    fun m hm => Nat.find_min hends hm
  have hle := hdeletes.length_add_le hcalls
  refine ⟨Nat.find hends, Nat.le_of_add_left_le hle, hcalls, fun m hm => ?_⟩
  induction m, hm using Nat.le_induction with
  | base => exact ⟨Nat.find_spec hends, rfl⟩
  | succ m hm ih =>
    obtain ⟨htext, hnone⟩ := (hdeletes.runCommits m).step_of_none ih.1
    rw [← runCommits_succ] at htext hnone
    exact ⟨hnone, htext.trans ih.2⟩

end Session

end Panel

end RmdOptions
