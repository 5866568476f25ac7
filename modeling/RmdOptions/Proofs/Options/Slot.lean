import RmdOptions.Proofs.Call.Span
import RmdOptions.Proofs.Chunk.Closing
import RmdOptions.Proofs.Options.Written

/-!
# A written call among other code

A call may be written where the body of a chunk starts, or in place of the first call of the body.
There it is the first call again: what has been passed over in front of it is passed over once more,
and what was open stays open.

* `Config.IsUsual` — configurations whose calls may stand behind any code;
* `Slot` — places where a written call is the first;
* `Slot.start`, `Slot.of_call` — the start of a body, and the place of its first call;
* `Slot.readOptions_eq`, `Slot.locate_eq` — the options that are read when a call is written there,
  and where it is found.
-/

namespace RmdOptions

/-! ## Lines that close a chunk -/

/-- A line that closes a block with a fence of backticks holds nothing else. -/
theorem Fence.backtick_of_closes {fence line : Text} (hfence : ∀ c ∈ fence, c = '\x60')
    (h : closes fence line = true) : ∀ c ∈ line, isWhiteSpace c = true ∨ c = '\x60' := by
  intro c hc
  rcases Text.isWhiteSpace_or_mem_trim hc with hwhite | hc
  · exact Or.inl hwhite
  · obtain ⟨more, hmore, hline⟩ := closes_iff.mp h
    rw [hline, List.mem_append] at hc
    rcases hc with hc | hc
    · exact Or.inr (hfence c (Text.mem_of_mem_trim hc))
    · have hlast := List.mem_of_getLast? (mem_copies_iff.mp hmore c hc)
      exact Or.inr (hfence c (Text.mem_of_mem_trim hlast))

/-! ## Configurations -/

/-- What is written for the configuration may stand behind any code: its names start with letters
that end whatever number or operator is before them, and its lines close no chunk. -/
structure Config.IsUsual (config : Config) : Prop where
  /-- what is written is plain -/
  plain : config.IsPlain
  /-- the package starts with such a letter -/
  package : ∃ c rest, config.shape.package = c :: rest ∧ Rule.isPlainLetter c = true
  /-- so does the object -/
  object : ∃ c rest, config.shape.object = c :: rest ∧ Rule.isPlainLetter c = true
  /-- chunks are closed by backticks -/
  fence : ∀ c ∈ config.closingFence, c = '\x60'

theorem Config.isUsual_default : Config.IsUsual {} where
  plain := Config.isPlain_default
  package := ⟨'k', "nitr".toList, by decide +kernel, by decide +kernel⟩
  object := ⟨'o', "pts_chunk".toList, by decide +kernel, by decide +kernel⟩
  fence := by decide

namespace Config.IsUsual

variable {config : Config} {m : OptionMap}

/-- The first line that is written starts with the package. -/
theorem exists_letter (h : config.IsUsual) {first : Text} {more : List Text}
    (hwritten : m.writtenLines config = first :: more) :
    ∃ c rest, first = c :: rest ∧ Rule.isPlainLetter c = true := by
  obtain ⟨c, rest, hpackage, hc⟩ := h.package
  rw [OptionMap.writtenLines, CallShape.head, hpackage] at hwritten
  split at hwritten
  · obtain ⟨rfl, -⟩ := List.cons.inj hwritten
    exact ⟨c, _, rfl, hc⟩
  · obtain ⟨rfl, -⟩ := List.cons.inj hwritten
    exact ⟨c, _, rfl, hc⟩

/-- A line with an argument has its equals sign. -/
theorem equals_mem_argumentLines {indent : Text} {entries : List (Text × Text)} :
    ∀ line ∈ argumentLines indent (entries.map OptionMap.argument), '=' ∈ line := by
  have hargument (entry : Text × Text) : '=' ∈ OptionMap.argument entry := by
    simp [OptionMap.argument]
  induction entries with
  | nil => exact fun _ h => absurd h List.not_mem_nil
  | cons entry more ih =>
    cases more with
    | nil =>
      intro line hline
      obtain rfl := List.mem_singleton.mp hline
      exact List.mem_append_right _ (hargument entry)
    | cons next more =>
      intro line hline
      rcases List.mem_cons.mp hline with rfl | hline
      · exact List.mem_append_left _ (List.mem_append_right _ (hargument entry))
      · exact ih line hline

/-- Every line that is written has a bracket or an equals sign. -/
theorem exists_mem_writtenLines (config : Config) (m : OptionMap) :
    ∀ line ∈ m.writtenLines config, ∃ c ∈ line, c ∈ ['(', '=', ')'] := by
  intro line hline
  rw [OptionMap.writtenLines] at hline
  split at hline
  · obtain rfl := List.mem_singleton.mp hline
    exact ⟨')', by simp, by decide⟩
  · rw [List.mem_cons, List.mem_append, List.mem_singleton] at hline
    rcases hline with rfl | hline | rfl
    · exact ⟨'(', by simp, by decide⟩
    · exact ⟨'=', equals_mem_argumentLines line hline, by decide⟩
    · exact ⟨')', by simp, by decide⟩

/-- A line that is written closes no chunk, whatever stands before it. -/
theorem closes_eq_false (h : config.IsUsual) (a : Text) :
    ∀ line ∈ m.writtenLines config, Fence.closes config.closingFence (a ++ line) = false := by
  intro line hline
  obtain ⟨c, hc, hmark⟩ := exists_mem_writtenLines config m line hline
  refine Bool.eq_false_iff.mpr fun hcloses => ?_
  have hbacktick := Fence.backtick_of_closes h.fence hcloses c (List.mem_append_right _ hc)
  revert hbacktick hmark
  clear hc
  revert c
  decide +kernel

end Config.IsUsual

/-! ## Code that is read elsewhere -/

section Elsewhere

variable {shape : CallShape} {row row' column depth : Nat} {stop stop' : Position} {tail : Text}
  {below : List Text}

/-- All tokens of a reading that ends at a place. -/
def finish (stop : Position) (r : Reading) : List Token := r.1 ++ abandoned r.2 stop

theorem finish_precede (ts : List Token) (r : Reading) :
    finish stop (precede ts r) = ts ++ finish stop r := by
  simp [finish]

/-- Where some code stands does not matter to the search. -/
theorem alike_finish_move (f : Position → Position) (r : Reading) :
    List.Forall₂ (Alike shape) (finish stop r) (finish stop' (moveReading f r)) := by
  refine List.rel_append ?_ ?_
  · rw [moveReading, List.forall₂_map_right_iff, List.forall₂_same]
    exact fun t _ => Alike.of_eq rfl rfl
  · rw [moveReading]
    cases r.2 with
    | none => exact .nil
    | some s => exact .cons (Alike.of_eq rfl rfl) .nil

/-- What has been read behind other code may be read from the start of another line on. -/
theorem alike_lexFrom :
    List.Forall₂ (Alike shape) (finish stop (lexFrom Rule.all row column tail below))
      (finish stop' (lexLines Rule.all none row' (tail :: below))) := by
  have hmove : lexFrom Rule.all row' 0 tail below =
      moveReading
        (fun p => if p.row = row then ⟨row', p.column - column⟩ else ⟨p.row + row' - row, p.column⟩)
        (lexFrom Rule.all row column tail below) := by
    refine lexFrom_move Rule.all _ tail below (fun n => ?_) fun i n => ?_
    · simp
    · have hne : row + 1 + i ≠ row := by omega
      have hrow : row + 1 + i + row' - row = row' + 1 + i := by omega
      simp [hne, hrow]
  have hline : lexLines Rule.all none row' (tail :: below) =
      lexFrom Rule.all row' 0 tail below := rfl
  rw [hline, hmove]
  exact alike_finish_move _ _

/-- A bracket that code leaves open is left open by what is kept of that code. -/
theorem closingOffset?_kept {kept : List Text}
    (hkept : kept = [] ∨ kept = tail :: below ∨ tail = [] ∧ kept = below)
    (h : Cursor.closingOffset? ['('] [')'] depth
      (finish stop (lexFrom Rule.all row column tail below)) = none) :
    Cursor.closingOffset? ['('] [')'] depth
      (finish stop' (lexLines Rule.all none row' kept)) = none := by
  -- any call will do, as brackets are the same in all of them
  have hclosing (row column : Nat) (tail : Text) (below : List Text) :
      Cursor.closingOffset? ['('] [')'] depth
          (finish stop (lexFrom Rule.all row column tail below)) =
        Cursor.closingOffset? ['('] [')'] depth
          (finish stop' (lexLines Rule.all none row' (tail :: below))) := by
    have halike : List.Forall₂ (Alike (Config.shape {}))
        (finish stop (lexFrom Rule.all row column tail below))
        (finish stop' (lexLines Rule.all none row' (tail :: below))) := alike_lexFrom
    exact closingOffset?_congr halike
  rcases hkept with rfl | rfl | ⟨rfl, rfl⟩
  · rfl
  · rwa [← hclosing]
  · -- nothing is left of the first line
    have hnext : lexFrom Rule.all row column [] kept = lexLines Rule.all none (row + 1) kept := by
      rw [lexFrom, lexCode_nil, precede_nil]
    rw [hnext] at h
    cases kept with
    | nil => rfl
    | cons line more =>
      have hline : lexLines Rule.all none (row + 1) (line :: more) =
          lexFrom Rule.all (row + 1) 0 line more := rfl
      rw [hline] at h
      rwa [← hclosing]

end Elsewhere

/-! ## Slots -/

/-- The lines up to the first that closes a chunk. -/
def openLines (fence : Text) (ls : List Text) : List Text :=
  ls.takeWhile fun line => !Fence.closes fence line

/-- The lines behind a call: what is left of its own line, unless that is nothing and other lines
follow. -/
def resumedLines (tail : Text) (more : List Text) : List Text :=
  if tail = [] ∧ more ≠ [] then more else tail :: more

theorem resumedLines_ne_nil (tail : Text) (more : List Text) : resumedLines tail more ≠ [] := by
  rw [resumedLines]
  split
  · next h => exact h.2
  · exact List.cons_ne_nil _ _

/-- When nothing is left of the line of a call, the lines below are resumed, if there are any. -/
theorem resumedLines_of_ne_nil {more : List Text} (h : more ≠ []) : resumedLines [] more = more :=
  if_pos ⟨rfl, h⟩

theorem resumedLines_nil : resumedLines [] [] = [[]] := if_neg fun h => h.2 rfl

theorem mem_resumedLines {tail line : Text} {more : List Text}
    (h : line ∈ resumedLines tail more) : line = tail ∨ line ∈ more := by
  rw [resumedLines] at h
  split at h
  · exact Or.inr h
  · exact List.mem_cons.mp h

/-- Of the lines behind a call, those up to the end of the chunk are kept, unless what is left of
its own line closes the chunk. -/
theorem openLines_resumedLines {fence tail : Text} {below after : List Text}
    (hbelow : ∀ line ∈ below, Fence.closes fence line = false)
    (hafter : ∀ line ∈ after.head?, Fence.closes fence line = true) :
    let kept := openLines fence (resumedLines tail (below ++ after))
    kept = [] ∨ kept = tail :: below ∨ tail = [] ∧ kept = below := by
  have hmore : (below ++ after).takeWhile (fun line => !Fence.closes fence line) = below := by
    rw [List.takeWhile_append_of_pos fun line hline => by rw [hbelow line hline]; rfl]
    cases after with
    | nil => exact List.append_nil below
    | cons line more => simp [hafter line rfl]
  rw [resumedLines, openLines]
  split
  · next h => exact Or.inr (Or.inr ⟨h.1, hmore⟩)
  · cases hcloses : Fence.closes fence tail with
    | true =>
      left
      simp [hcloses]
    | false =>
      right
      left
      rw [List.takeWhile_cons_of_pos (by simp [hcloses]), hmore]

/-- A slot for a call in the body of a chunk: the lines above it, the start of its own line, and the
lines behind it. A call that is written there, with a line feed behind it, is the first one in the
body. -/
structure Slot (fence : Text) (shape : CallShape) (above : List Text) (a : Text)
    (rest : List Text) (earlier : List Token) : Prop where
  /-- each of the lines stands on one row -/
  unbroken : ∀ line ∈ above ++ a :: rest, Text.Unbroken line
  /-- no line above closes the chunk -/
  above_open : ∀ line ∈ above, Fence.closes fence line = false
  /-- the tokens that are read before the slot start before it -/
  before_lt : ∀ t ∈ earlier, t.start < ⟨above.length, a.length⟩
  /-- they are read whatever plain text is put into the slot -/
  read : ∀ r below, (∃ c more, r = c :: more ∧ Rule.isPlainLetter c = true) → '%' ∉ r →
    '\x60' ∉ r → lexLines Rule.all none 0 (above ++ (a ++ r) :: below) =
      precede earlier (lexFrom Rule.all above.length a.length r below)
  /-- a call in the slot is the first one -/
  first : ∀ call : FullCall, call.IsCall shape → ∀ row stop,
    callAt? shape (earlier ++ (call.tokens ++
      finish stop (lexLines Rule.all none row (openLines fence rest)))) =
      some (earlier.length + 2, earlier.length + (call.inner.length + 6))

namespace Slot

variable {fence : Text} {shape : CallShape}

/-- The start of a body is a slot. -/
theorem start {rest : List Text} (h : ∀ line ∈ rest, Text.Unbroken line) :
    Slot fence shape [] [] rest [] where
  unbroken line hline := by
    rcases List.mem_cons.mp hline with rfl | hline
    · exact fun c hc => absurd hc List.not_mem_nil
    · exact h line hline
  above_open line hline := absurd hline List.not_mem_nil
  before_lt t ht := absurd ht List.not_mem_nil
  read r below _ _ _ := rfl
  first call hcall row stop := by
    rw [List.nil_append, hcall.callAt?_eq]
    simp

/-- **The place of the first call is a slot**, and the rest goes on behind its closing bracket. -/
theorem of_call {body after : List Text} {stop : Position}
    (hbody : ∀ line ∈ body, Text.Unbroken line ∧ Fence.closes fence line = false)
    (hafter : ∀ line ∈ after, Text.Unbroken line)
    (hcloses : ∀ line ∈ after.head?, Fence.closes fence line = true)
    (hpackage : ∃ c rest, shape.package = c :: rest ∧ Rule.isPlainLetter c = true)
    (hobject : ∃ c rest, shape.object = c :: rest ∧ Rule.isPlainLetter c = true)
    {earlier inside later : List Token} {first close : Token}
    (hcall : Call shape (finish stop (lexLines Rule.all none 0 body)) earlier first inside close
      later)
    {later₁ later₂ : List Token} {above above' below below' : List Text}
    {head head' tail tail' : Text}
    (hfirst : CutAt Rule.all none 0 body earlier first later₁ above head tail below)
    (hclose : CutAt Rule.all none 0 body (earlier ++ first :: inside) close later₂ above' head'
      tail' below')
    (hlater : later = later₂ ++ abandoned (lexLines Rule.all none 0 body).2 stop) :
    Slot fence shape above head (resumedLines tail' (below' ++ after)) earlier where
  unbroken line hline := by
    rcases List.mem_append.mp hline with hline | hline
    · exact (hbody line (hfirst.mem_of_mem_above line hline)).1
    · rcases List.mem_cons.mp hline with rfl | hline
      · exact (hbody _ hfirst.line_mem).1.left
      · rcases mem_resumedLines hline with rfl | hline
        · exact (hbody _ hclose.line_mem).1.right.right
        · rcases List.mem_append.mp hline with hline | hline
          · exact (hbody line (hclose.mem_of_mem_below line hline)).1
          · exact hafter line hline
  above_open line hline := (hbody line (hfirst.mem_of_mem_above line hline)).2
  before_lt t ht := by
    have hlt := hfirst.before_lt t ht
    rwa [hfirst.start_eq, Nat.zero_add] at hlt
  read r below hletter hpercent hbacktick := by
    -- the call that stands there starts with one of the names
    have hold : ∃ c rest, first.text ++ tail = c :: rest ∧ Rule.isPlainLetter c = true := by
      have hname : first.text = shape.package ∨ first.text = shape.object := by
        cases hcall with
        | bare found => exact Or.inr (Token.is_iff.mp found.object_is).2
        | qualified _ hpackage => exact Or.inl (Token.is_iff.mp hpackage).2
      rcases hname with hname | hname
      · obtain ⟨c, rest, hletters, hc⟩ := hpackage
        exact ⟨c, rest ++ tail, by rw [hname, hletters, List.cons_append], hc⟩
      · obtain ⟨c, rest, hletters, hc⟩ := hobject
        exact ⟨c, rest ++ tail, by rw [hname, hletters, List.cons_append], hc⟩
    have hread := hfirst.replace r below ⟨hold, hletter, hpercent, hbacktick⟩
    rwa [Nat.zero_add] at hread
  first call hwritten row stop' := by
    have hbelow : ∀ line ∈ below', Fence.closes fence line = false :=
      fun line hline => (hbody line (hclose.mem_of_mem_below line hline)).2
    have hopen (depth : Nat) (hnone : Cursor.closingOffset? ['('] [')'] depth later = none) :
        Cursor.closingOffset? ['('] [')'] depth (finish stop' (lexLines Rule.all none row
          (openLines fence (resumedLines tail' (below' ++ after))))) = none := by
      have hread : later = finish stop (lexFrom Rule.all (0 + above'.length)
          (head'.length + close.text.length) tail' below') := by
        rw [hclose.after_eq, hlater]
        rfl
      rw [hread] at hnone
      -- the rest may end the chunk, and then there is less to close a bracket
      exact closingOffset?_kept (openLines_resumedLines hbelow hcloses) hnone
    cases hcall with
    | bare found =>
      rw [found.callAt?_replace (List.forall₂_same.mpr fun t _ => Alike.refl t)
        hwritten.neutral_tokens hopen, hwritten.callAt?_eq, later_some]
      congr 2 <;> omega
    | qualified found hpackage hcolons =>
      -- the qualifier is written anew as well, but the search stops at the object
      have hearlier : List.Forall₂ (Alike shape) earlier earlier :=
        List.forall₂_same.mpr fun t _ => Alike.refl t
      have hqualifier := List.rel_append hearlier (hwritten.alike_qualifier hpackage hcolons)
      have hfound := found.callAt?_replace hqualifier hwritten.neutral_object hopen
      rw [hwritten.callAt?_object, later_some, List.append_assoc] at hfound
      refine hfound.trans ?_
      rw [List.length_append]
      simp only [List.length_cons, List.length_nil]
      congr 2 <;> omega

variable {above rest more : List Text} {a first : Text} {earlier : List Token} {config : Config}
  {m : OptionMap}

/-- The lines of a body with a call in the slot. -/
theorem unbroken_written (hconfig : config.IsUsual) (hm : m.IsPlain)
    (h : Slot fence shape above a rest earlier) (hwritten : m.writtenLines config = first :: more) :
    ∀ line ∈ above ++ (a ++ first) :: (more ++ rest), Text.Unbroken line := by
  have hlines := hm.unbroken hconfig.plain
  rw [hwritten] at hlines
  intro line hline
  rw [List.mem_append, List.mem_cons, List.mem_append] at hline
  rcases hline with hline | rfl | hline | hline
  · exact h.unbroken line (List.mem_append_left _ hline)
  · have ha := h.unbroken a (List.mem_append_right _ List.mem_cons_self)
    exact ha.append (hlines first (List.mem_append_left _ List.mem_cons_self))
  · exact hlines line (List.mem_append_left _ (List.mem_cons_of_mem _ hline))
  · exact h.unbroken line (List.mem_append_right _ (List.mem_cons_of_mem _ hline))

/-- **A call that is written in a slot is found there**, whatever other code there is: it is the
first call of the body, and its span is that of its lines. -/
theorem exists_written (hconfig : config.IsUsual) (hm : m.IsPlain) (hne : m.entries ≠ [])
    (h : Slot config.closingFence config.shape above a rest earlier)
    (hwritten : m.writtenLines config = first :: more) :
    let source := Text.ofLines
      (above ++ (a ++ first) :: (more ++ openLines config.closingFence rest))
    let tokens := (Lexer.closedBy config.closingFence).codeTokens source
    ∃ (call : FullCall) (after : List Token), call.IsCall config.shape ∧
      tokens = earlier ++ (call.tokens ++ after) ∧
      callAt? config.shape tokens =
        some (earlier.length + 2, earlier.length + (call.inner.length + 6)) ∧
      call.package.start = ⟨above.length, a.length⟩ ∧
      call.close.stop = lastPlace above.length ((a ++ first) :: more) ∧
      call.groups.filterMap (namedArgument? source) = (m.written config).entries := by
  obtain ⟨kept, hkept⟩ : ∃ kept, kept = openLines config.closingFence rest := ⟨_, rfl⟩
  obtain ⟨body, hbody⟩ : ∃ body, body = above ++ (a ++ first) :: (more ++ kept) := ⟨_, rfl⟩
  rw [← hkept, ← hbody]
  have hunbroken : ∀ line ∈ body, Text.Unbroken line := by
    intro line hline
    refine h.unbroken_written hconfig hm hwritten line ?_
    rw [hbody, hkept, List.mem_append, List.mem_cons, List.mem_append] at hline
    rw [List.mem_append, List.mem_cons, List.mem_append]
    exact hline.imp_right (Or.imp_right (Or.imp_right fun hmem =>
      (List.takeWhile_prefix _).subset hmem))
  have hlines : (Text.ofLines body).lines = body :=
    Text.lines_ofLines (by simp [hbody]) fun line hline => (hunbroken line hline).feed_not_mem
  obtain ⟨call, hcall, ⟨hstart, hstop⟩, hread, hoptions⟩ := exists_fullCall hconfig.plain hm hne
    (Text.feedsOnly_ofLines hunbroken) above kept a hwritten (hlines.trans hbody)
  -- what is read before the call, the call itself, and what is read behind it
  have hplain := hm.isPlainChar hconfig.plain first (by rw [hwritten]; exact List.mem_cons_self)
  have hearlier := h.read first (more ++ kept) (hconfig.exists_letter hwritten)
    (fun hc => (rules_of_isPlainChar (hplain _ hc)).2.1 rfl)
    (fun hc => (rules_of_isPlainChar (hplain _ hc)).2.2 rfl)
  have hcode : Lexer.codeTokens (.closedBy config.closingFence) (Text.ofLines body) =
      earlier ++ (call.tokens ++ finish (lastPlace 0 body)
        (lexLines Rule.all none (above.length + 1 + more.length) kept)) := by
    have hrules : (Lexer.closedBy config.closingFence).rules = Rule.all := rfl
    have hall : lexLines Rule.all none 0 body = precede earlier (precede call.tokens
        (lexLines Rule.all none (above.length + 1 + more.length) kept)) := by
      rw [hbody, hearlier, lexFrom_append, hread]
    have htokens := Lexer.codeTokens_eq (.closedBy config.closingFence) (Text.ofLines body)
    rw [hrules, hlines, hall] at htokens
    rw [htokens, ← finish, finish_precede, finish_precede]
  have hfirst := h.first call hcall (above.length + 1 + more.length) (lastPlace 0 body)
  rw [← hkept, ← hcode] at hfirst
  exact ⟨call, _, hcall, hcode, hfirst, hstart, hstop, hoptions⟩

/-- **The options of a call in a slot are read back.** -/
theorem readOptions_eq (hconfig : config.IsUsual) (hm : m.IsPlain) (hne : m.entries ≠ [])
    (h : Slot config.closingFence config.shape above a rest earlier)
    (hwritten : m.writtenLines config = first :: more) :
    config.readOptions (Text.ofLines
        (above ++ (a ++ first) :: (more ++ openLines config.closingFence rest))) =
      .ok (m.written config) := by
  obtain ⟨call, after, hcall, htokens, hat, hstart, -, hoptions⟩ :=
    h.exists_written hconfig hm hne hwritten
  have hbefore : ∀ t ∈ earlier, t.start < call.package.start := by
    rw [hstart]
    exact h.before_lt
  rw [Config.readOptions, hcall.readOptions_eq htokens hbefore hat, hoptions,
    OptionMap.ofList_entries]

/-- **A call in a slot is located where its lines are.** -/
theorem locate_eq (hconfig : config.IsUsual) (hm : m.IsPlain) (hne : m.entries ≠ [])
    (h : Slot config.closingFence config.shape above a rest earlier)
    (hwritten : m.writtenLines config = first :: more) :
    ∃ span : Span, span.start = ⟨above.length, a.length⟩ ∧
      span.stop = lastPlace above.length ((a ++ first) :: more) ∧
      (locate config.shape (Cursor.start ((Lexer.closedBy config.closingFence).codeTokens
        (Text.ofLines
          (above ++ (a ++ first) :: (more ++ openLines config.closingFence rest)))))).1 =
        some span := by
  obtain ⟨call, after, hcall, htokens, hat, hstart, hstop, -⟩ :=
    h.exists_written hconfig hm hne hwritten
  have hspan := hcall.spanAt_eq earlier after
  rw [← htokens] at hspan
  refine ⟨Span.ofEnds call.package.start call.close.stop, ?_, ?_, ?_⟩
  · rw [Span.ofEnds_start_of_le hcall.start_le_stop, hstart]
  · rw [Span.ofEnds_stop_of_le hcall.start_le_stop, hstop]
  · rw [locate_start, hat, Option.bind_some, hspan]

end Slot

end RmdOptions
