import RmdOptions.Proofs.Token.Layout
import RmdOptions.Proofs.Token.Plain

/-!
# Reading a written call

The call that is written for some plain options is read as a call again, wherever its lines stand,
and its arguments are the options.

* `OptionMap.writtenLines`, `OptionMap.render_eq` — the lines of a call;
* `exists_readAs_head`, `exists_readAs_argument` — the head of a call and its arguments;
* `exists_fullCall` — the tokens of a call;
* `Config.readOptions_render` — reading undoes writing.
-/

namespace RmdOptions

/-! ## The lines of a call -/

/-- Arguments one to a line, with an indent before them and commas behind all but the last. -/
def argumentLines (indent : Text) : List Text → List Text
  | [] => []
  | [last] => [indent ++ last]
  | item :: next :: more => (indent ++ item ++ [',']) :: argumentLines indent (next :: more)

theorem ended_argumentLines (indent : Text) {items : List Text} (h : items ≠ []) :
    Text.ended (argumentLines indent items) =
      indent ++ ([',', '\n'] ++ indent).intercalate items ++ ['\n'] := by
  induction items with
  | nil => exact absurd rfl h
  | cons item more ih =>
    cases more with
    | nil => simp [argumentLines]
    | cons next more =>
      rw [argumentLines, Text.ended_cons, ih (List.cons_ne_nil _ _)]
      simp [List.intercalate]

/-- Writing a new name adds it at the end. -/
theorem Keyed.put_of_not_mem {α : Type} {key : Text} {value : α} {entries : List (Text × α)}
    (h : key ∉ entries.map Prod.fst) : put key value entries = entries ++ [(key, value)] := by
  induction entries with
  | nil => rfl
  | cons entry rest ih =>
    obtain ⟨k, v⟩ := entry
    rw [List.map_cons, List.mem_cons, not_or] at h
    rw [put, if_neg (Ne.symm h.1), ih h.2, List.cons_append]

namespace OptionMap

/-- The options in the order in which they are written. -/
def written (config : Config) (m : OptionMap) : OptionMap :=
  if m.size ≤ config.singleLineMax then m else m.sorted

/-- The lines of the call that sets some options. -/
def writtenLines (config : Config) (m : OptionMap) : List Text :=
  if m.size ≤ config.singleLineMax then
    [config.shape.head ++ '(' :: m.arguments [',', ' '] ++ [')']]
  else
    (config.shape.head ++ ['(']) ::
      (argumentLines config.indent (m.sorted.entries.map argument) ++ [[')']])

theorem sorted_entries_ne_nil {m : OptionMap} (h : m.entries ≠ []) : m.sorted.entries ≠ [] := by
  intro hnil
  have hlength := (List.mergeSort_perm m.entries fun a b => a.1.atMost b.1).length_eq
  have hsorted : m.sorted.entries.length = m.entries.length := hlength
  rw [hnil, List.length_nil] at hsorted
  exact h (List.eq_nil_of_length_eq_zero hsorted.symm)

/-- What is written are these lines, each with a line feed. -/
theorem render_eq (config : Config) {m : OptionMap} (h : m.entries ≠ []) :
    m.render config = Text.ended (m.writtenLines config) := by
  have hne : m.isEmpty = false := by simpa [isEmpty] using h
  rw [render, hne, writtenLines]
  simp only [Bool.false_eq_true, if_false]
  split
  · simp
  · have hitems : m.sorted.entries.map argument ≠ [] := by simpa using sorted_entries_ne_nil h
    rw [Text.ended_cons, Text.ended_append, ended_argumentLines _ hitems, arguments]
    simp

theorem entries_insertAll (m : OptionMap) (pairs : List (Text × Text))
    (h : ((m.entries ++ pairs).map Prod.fst).Nodup) :
    (m.insertAll pairs).entries = m.entries ++ pairs := by
  induction pairs generalizing m with
  | nil => rw [List.append_nil]; rfl
  | cons pair pairs ih =>
    have hnew : pair.1 ∉ m.entries.map Prod.fst := by
      intro hmem
      rw [List.map_append, List.nodup_append] at h
      exact h.2.2 _ hmem pair.1 (by simp) rfl
    have hinsert : (m.insert pair.1 pair.2).entries = m.entries ++ [pair] :=
      Keyed.put_of_not_mem hnew
    have hrest := ih (m.insert pair.1 pair.2) (by rw [hinsert]; simpa using h)
    rw [hinsert, List.append_assoc, List.singleton_append] at hrest
    exact hrest

/-- The entries of a map make that map. -/
theorem ofList_entries (m : OptionMap) : ofList m.entries = m :=
  OptionMap.ext (entries_insertAll empty m.entries m.nodup)

end OptionMap

/-! ## The parts of a call -/

variable {row column : Nat} {rest : Text}

/-- The names in a call are plain, and none of them is reserved. -/
structure CallShape.IsPlain (shape : CallShape) : Prop where
  /-- the package -/
  package : IsName shape.package ∧ shape.package ∉ reservedWords
  /-- the object -/
  object : IsName shape.object ∧ shape.object ∉ reservedWords
  /-- the method -/
  method : IsName shape.method ∧ shape.method ∉ reservedWords

/-- The call of a configuration is plain, and indented by spaces and tabs. -/
structure Config.IsPlain (config : Config) : Prop where
  /-- the names in the call -/
  shape : config.shape.IsPlain
  /-- the indent -/
  indent : ∀ c ∈ config.indent, c = ' ' ∨ c = '\t'

theorem Config.isPlain_default : Config.IsPlain {} where
  shape := ⟨by decide +kernel, by decide +kernel, by decide +kernel⟩
  indent := by decide

theorem Config.IsPlain.isWhiteSpace {config : Config} (h : config.IsPlain) :
    ∀ c ∈ config.indent, isWhiteSpace c = true := by
  intro c hc
  rcases h.indent c hc with rfl | rfl <;> decide

/-- A name that is not reserved is an identifier. -/
theorem readAs_identifier (row column : Nat) {name rest : Text}
    (h : IsName name ∧ name ∉ reservedWords) (hrest : StopsWord rest) :
    ReadAs row column name [tokenAt .identifier row column name] rest := by
  have hkind : TokenKind.identifier.ofLexeme name = .identifier := by
    rw [TokenKind.ofLexeme, if_neg fun hc => h.2 hc.2]
  have hreads := readAs_name row column h.1 hrest
  rwa [hkind] at hreads

/-- The head of a call, up to the bracket that opens its arguments. -/
theorem exists_readAs_head {shape : CallShape} (h : shape.IsPlain) (row column : Nat) :
    ∃ package colons object dollar method bracket,
      CallHead shape package colons object dollar method bracket ∧
      package.start = ⟨row, column⟩ ∧ package.start ≤ bracket.start ∧
      ∀ rest, ReadAs row column (shape.head ++ ['('])
        [package, colons, object, dollar, method, bracket] rest := by
  have hhead : shape.head ++ ['('] = shape.package ++ ([':', ':'] ++ (shape.object ++
      (['$'] ++ (shape.method ++ ['('])))) := by
    simp [CallShape.head]
  have hpackage (rest : Text) :
      StopsWord (([':', ':'] ++ (shape.object ++ (['$'] ++ (shape.method ++ ['('])))) ++ rest) :=
    stopsWord_cons (by decide) _
  have hcolons (rest : Text) :
      (shape.object ++ (['$'] ++ (shape.method ++ ['('])) ++ rest).head? ≠ some ':' := by
    rw [List.append_assoc]
    exact h.object.1.head?_ne_colon _
  have hreads (rest : Text) := (readAs_identifier row column h.package (hpackage rest)).append
    ((readAs_colons (hcolons rest)).append
      ((readAs_identifier _ _ h.object (stopsWord_cons (by decide) _)).append
        (readAs_dollar.append
          ((readAs_identifier _ _ h.method (stopsWord_cons (by decide) _)).append
            (readAs_punctuation (c := '(') (by decide))))))
  refine ⟨_, _, _, _, _, _, ?_, ?_, ?_, fun rest => hhead ▸ hreads rest⟩
  · constructor <;> exact is_tokenAt _ _ _ _
  · rfl
  · refine Or.inr ⟨rfl, ?_⟩
    simp only [tokenAt]
    omega

/-- White space is passed over. -/
theorem readAs_indent {indent : Text} (h : ∀ c ∈ indent, isWhiteSpace c = true) :
    ReadAs row column indent [] rest := by
  induction indent generalizing column with
  | nil => exact ReadAs.nil
  | cons c indent ih =>
    have hfirst : ReadAs row column [c] [] (indent ++ rest) := readAs_white (h c List.mem_cons_self)
    exact hfirst.append (ih fun d hd => h d (List.mem_cons_of_mem _ hd))

/-- A name has no quotes around it. -/
theorem unquote_name {name : Text} (h : IsName name) :
    Text.unquote ['\x60', '\x22', '\x27'] name = name := by
  obtain ⟨c, rest, rfl, -⟩ := h.exists_cons
  have hc := (rules_of_isWordChar (h.2 c List.mem_cons_self)).1
  simp [Text.unquote, Text.between?, hc]

/-- The value of an argument is cut from the source between its first and its last token. -/
theorem namedArgument?_assignment {source : Text} {name equals : Token} {ts : List Token}
    {start stop : Position} (hequals : equals.is .operator ['='] = true)
    (hstart : ts.head?.map (·.start) = some start) (hstop : ts.getLast?.map (·.stop) = some stop) :
    namedArgument? source (name :: equals :: ts) =
      some (Text.unquote ['\x60', '\x22', '\x27'] name.text, source.slice start stop) := by
  obtain ⟨first, hfirst, rfl⟩ := Option.map_eq_some_iff.mp hstart
  obtain ⟨last, hlast, rfl⟩ := Option.map_eq_some_iff.mp hstop
  obtain ⟨more, rfl⟩ := List.head?_eq_some_iff.mp hfirst
  rw [List.getLast?_eq_some_getLast (List.cons_ne_nil _ _)] at hlast
  rw [namedArgument?, if_pos hequals, Option.some.inj hlast]

/-- What is written as the name of an argument, if it is one token, is followed by an equals sign
and the value. -/
theorem exists_readAs_assignment {source : Text} (hfeeds : source.FeedsOnly) {written value : Text}
    {kind : TokenKind} (hvalue : PlainValue value) {a b : Text}
    (hline : source.lines[row]? = some (a ++ (OptionMap.argument (written, value) ++ b)))
    (hb : StopsWord b)
    (hname : ReadAs row a.length written [tokenAt kind row a.length written]
      (' ' :: ('=' :: ' ' :: value ++ b))) :
    ∃ equals ts, equals.is .operator ['='] = true ∧ Neutral 0 (equals :: ts) ∧
      namedArgument? source (tokenAt kind row a.length written :: equals :: ts) =
        some (Text.unquote ['\x60', '\x22', '\x27'] written, value) ∧
      ReadAs row a.length (OptionMap.argument (written, value))
        (tokenAt kind row a.length written :: equals :: ts) b := by
  have hargument : OptionMap.argument (written, value) =
      written ++ ([' '] ++ (['=', ' '] ++ value)) := by
    simp [OptionMap.argument]
  rw [hargument] at hline ⊢
  obtain ⟨ts, hts⟩ : ∃ ts, ReadAsValue row (a.length + written.length + 1 + 2) value ts b :=
    exists_readAs_value hvalue hb
  have hequals : ReadAs row (a.length + written.length + 1) ['=', ' ']
      [tokenAt .operator row (a.length + written.length + 1) ['=']] (value ++ b) :=
    ReadAs.append (t := ['=']) (readAs_equals (by simp)) (readAs_white (by decide))
  have hreads := hname.append ((readAs_white (by decide)).append (hequals.append hts.reads))
  refine ⟨_, ts, is_tokenAt _ _ _ _, (neutral_tokenAt (by decide) _).append hts.neutral, ?_,
    hreads⟩
  have hslice : source.slice ⟨row, a.length + written.length + 1 + 2⟩
      ⟨row, a.length + written.length + 1 + 2 + value.length⟩ = value := by
    have hplace : a.length + written.length + 1 + 2 =
        (a ++ written ++ [' '] ++ ['=', ' ']).length := by
      simp [Nat.add_assoc]
    rw [hplace]
    exact Text.slice_line hfeeds (b := b) (by rw [hline]; simp)
  rw [namedArgument?_assignment (is_tokenAt _ _ _ _) hts.start_eq hts.stop_eq, hslice]
  simp only [tokenAt]

/-- An argument is read as its name, an equals sign and its value. -/
theorem exists_readAs_argument {source : Text} (hfeeds : source.FeedsOnly)
    {entry : Text × Text} (hname : IsName entry.1) (hvalue : PlainValue entry.2) {a b : Text}
    (hline : source.lines[row]? = some (a ++ (OptionMap.argument entry ++ b))) (hb : StopsWord b) :
    ∃ ts, (Neutral 0 ts ∧ namedArgument? source ts = some entry) ∧
      ReadAs row a.length (OptionMap.argument entry) ts b := by
  obtain ⟨key, value⟩ := entry
  have hkey := readAs_name row a.length hname
    (stopsWord_cons (c := ' ') (by decide) ('=' :: ' ' :: value ++ b))
  obtain ⟨equals, ts, -, hneutral, hnamed, hreads⟩ :=
    exists_readAs_assignment hfeeds hvalue hline hb hkey
  rw [unquote_name hname] at hnamed
  have hfirst : Neutral 0 [tokenAt (TokenKind.identifier.ofLexeme key) row a.length key] :=
    neutral_tokenAt (TokenKind.ofLexeme_ne (Or.inl rfl) key) key
  exact ⟨_, ⟨hfirst.append hneutral, hnamed⟩, hreads⟩

/-! ## The whole call -/

/-- An argument of a call, with its tokens. -/
def IsArgument (source : Text) (entry : Text × Text) (ts : List Token) : Prop :=
  Neutral 0 ts ∧ namedArgument? source ts = some entry

theorem filterMap_namedArgument? {source : Text} {entries : List (Text × Text)}
    {groups : List (List Token)} (h : List.Forall₂ (IsArgument source) entries groups) :
    groups.filterMap (namedArgument? source) = entries := by
  induction h with
  | nil => rfl
  | cons hentry _ ih => rw [List.filterMap_cons, hentry.2, ih]

/-- Arguments one to a line are read line by line. -/
theorem exists_lexLines_arguments (row : Nat) {source indent : Text} (hfeeds : source.FeedsOnly)
    (hindent : ∀ c ∈ indent, isWhiteSpace c = true) {entries : List (Text × Text)}
    (hne : entries ≠ []) (hplain : ∀ entry ∈ entries, IsName entry.1 ∧ PlainValue entry.2)
    (hlines : ∀ i line, (argumentLines indent (entries.map OptionMap.argument))[i]? = some line →
      source.lines[row + i]? = some line) :
    ∃ groups ts, List.Forall₂ (IsArgument source) entries groups ∧ Separated groups ts ∧
      lexLines Rule.all none row (argumentLines indent (entries.map OptionMap.argument)) =
        (ts, none) := by
  induction entries generalizing row with
  | nil => exact absurd rfl hne
  | cons entry more ih =>
    obtain ⟨hname, hvalue⟩ := hplain entry List.mem_cons_self
    have hspace {b : Text} : ReadAs row 0 indent [] b := readAs_indent hindent
    cases more with
    | nil =>
      have hline := hlines 0 (indent ++ OptionMap.argument entry) rfl
      obtain ⟨ts, hargument, hreads⟩ := exists_readAs_argument (b := []) hfeeds hname hvalue
        (by rw [List.append_nil]; exact hline) stopsWord_nil
      rw [← Nat.zero_add indent.length] at hreads
      have hcode : lexLine Rule.all none row (indent ++ OptionMap.argument entry) = (ts, none) :=
        (hspace.append hreads).lexCode_eq
      refine ⟨[ts], ts, .cons hargument .nil, .last ts, ?_⟩
      rw [List.map_singleton, argumentLines, lexLines_cons, hcode, lexLines_nil, precede,
        List.append_nil]
    | cons next more =>
      have hline := hlines 0 (indent ++ OptionMap.argument entry ++ [',']) rfl
      obtain ⟨ts, hargument, hreads⟩ := exists_readAs_argument (b := [',']) hfeeds hname hvalue
        (by rw [← List.append_assoc]; exact hline) (stopsWord_cons (by decide) [])
      obtain ⟨groups, us, hgroups, hseparated, hrest⟩ := ih (row + 1) (List.cons_ne_nil _ _)
        (fun e he => hplain e (List.mem_cons_of_mem _ he)) (fun i line hi => by
          rw [Nat.add_right_comm, Nat.add_assoc]
          exact hlines (i + 1) line hi)
      rw [← Nat.zero_add indent.length] at hreads
      have hcode : lexLine Rule.all none row (indent ++ OptionMap.argument entry ++ [',']) =
          (ts ++ [tokenAt .punctuation row _ [',']], none) :=
        ((hspace.append hreads).append (readAs_punctuation (by decide))).lexCode_eq
      have hcomma := is_tokenAt .punctuation row
        (0 + (indent ++ OptionMap.argument entry).length) [',']
      refine ⟨ts :: groups, _, .cons hargument hgroups, .cons ts hcomma hseparated, ?_⟩
      rw [List.map_cons, List.map_cons, argumentLines, lexLines_cons, hcode]
      rw [List.map_cons] at hrest
      rw [hrest, precede, List.append_assoc]
      rfl

/-- The tokens of a call that is written on one line, behind other code. -/
theorem exists_fullCall_joined {shape : CallShape} (hshape : shape.IsPlain) {m : OptionMap}
    (hm : m.IsPlain) (hne : m.entries ≠ []) {source : Text} (hfeeds : source.FeedsOnly) (row : Nat)
    {a line : Text} (hwritten : line = shape.head ++ '(' :: m.arguments [',', ' '] ++ [')'])
    (hline : source.lines[row]? = some (a ++ line)) :
    ∃ call : FullCall, call.IsCall shape ∧
      (call.package.start = ⟨row, a.length⟩ ∧ call.close.stop = ⟨row, (a ++ line).length⟩) ∧
      lexCode Rule.all row a.length line = (call.tokens, none) ∧
      call.groups.filterMap (namedArgument? source) = m.entries := by
  obtain ⟨package, colons, object, dollar, method, bracket, hhead, hstart, hbracket, hreads⟩ :=
    exists_readAs_head hshape row a.length
  have hsplit : line = (shape.head ++ ['(']) ++ (m.arguments [',', ' '] ++ [')']) := by
    rw [hwritten]
    simp
  obtain ⟨groups, inner, hgroups, hseparated, hinner⟩ := exists_readAs_joined OptionMap.argument
    hne (fun entry hentry a' b hitem hb => exists_readAs_argument hfeeds (hm entry hentry).1
      (hm entry hentry).2 (hline.trans (congrArg some hitem)) hb)
    (a ++ (shape.head ++ ['('])) [')'] (by rw [hsplit]; simp [OptionMap.arguments])
    (stopsWord_cons (by decide) [])
  have hclose : ReadAs row (a.length + (shape.head ++ ['(']).length +
      (m.arguments [',', ' ']).length) [')'] [tokenAt .punctuation row _ [')']] [] :=
    readAs_punctuation (by decide)
  rw [List.length_append] at hinner
  have hcode := ((hreads _).append (hinner.append hclose)).lexCode_eq
  refine ⟨⟨package, colons, object, dollar, method, bracket, groups, inner,
      tokenAt .punctuation row (a.length + (shape.head ++ ['(']).length +
        (m.arguments [',', ' ']).length) [')']⟩,
    ⟨hhead, hseparated, forall_mem_of_forall₂ hgroups fun _ _ h => h.1, is_tokenAt _ _ _ _,
      hbracket, ?_⟩, ⟨hstart, ?_⟩, ?_, filterMap_namedArgument? hgroups⟩
  · rw [hstart]
    refine Or.inr ⟨rfl, ?_⟩
    simp only [tokenAt]
    omega
  · rw [hsplit]
    simp only [tokenAt, List.length_append]
    congr 1
    omega
  · rw [hsplit, hcode]
    rfl

/-- The tokens of a call with its head, its arguments and its closing bracket on lines of their
own. -/
theorem exists_fullCall_stacked {config : Config} (hconfig : config.IsPlain) {m : OptionMap}
    (hm : m.IsPlain) (hne : m.entries ≠ []) {source : Text} (hfeeds : source.FeedsOnly)
    (row column : Nat) {items : List Text}
    (hitems : items = argumentLines config.indent (m.entries.map OptionMap.argument))
    (hlines : ∀ i line, items[i]? = some line → source.lines[row + 1 + i]? = some line) :
    ∃ call : FullCall, call.IsCall config.shape ∧
      (call.package.start = ⟨row, column⟩ ∧ call.close.stop = ⟨row + 1 + items.length, 1⟩) ∧
      lexFrom Rule.all row column (config.shape.head ++ ['(']) (items ++ [[')']]) =
        (call.tokens, none) ∧
      call.groups.filterMap (namedArgument? source) = m.entries := by
  obtain ⟨package, colons, object, dollar, method, bracket, hhead, hstart, hbracket, hreads⟩ :=
    exists_readAs_head hconfig.shape row column
  subst hitems
  obtain ⟨groups, inner, hgroups, hseparated, hinner⟩ := exists_lexLines_arguments (row + 1)
    hfeeds hconfig.isWhiteSpace hne hm hlines
  obtain ⟨below, hbelow⟩ : ∃ below, below = row + 1 +
      (argumentLines config.indent (m.entries.map OptionMap.argument)).length := ⟨_, rfl⟩
  have hclose : lexLine Rule.all none below [')'] = ([tokenAt .punctuation below 0 [')']], none) :=
    (readAs_punctuation (by decide)).lexCode_eq
  refine ⟨⟨package, colons, object, dollar, method, bracket, groups, inner,
      tokenAt .punctuation below 0 [')']⟩,
    ⟨hhead, hseparated, forall_mem_of_forall₂ hgroups fun _ _ h => h.1, is_tokenAt _ _ _ _,
      hbracket, ?_⟩, ⟨hstart, by rw [← hbelow]; rfl⟩, ?_, filterMap_namedArgument? hgroups⟩
  · rw [hstart]
    refine Or.inl ?_
    simp only [tokenAt]
    omega
  · rw [lexFrom, (hreads []).lexCode_eq]
    dsimp only
    rw [lexLines_append, hinner, lexLines_cons, ← hbelow, hclose]
    rfl

/-- **The tokens of a written call.** Its lines may stand anywhere in the source, behind other code
on the first of their rows. The call starts behind that code and ends with its last line. -/
theorem exists_fullCall {config : Config} (hconfig : config.IsPlain) {m : OptionMap}
    (hm : m.IsPlain) (hne : m.entries ≠ []) {source : Text} (hfeeds : source.FeedsOnly)
    (above below : List Text) (a : Text) {first : Text} {more : List Text}
    (hwritten : m.writtenLines config = first :: more)
    (hlines : source.lines = above ++ (a ++ first) :: (more ++ below)) :
    ∃ call : FullCall, call.IsCall config.shape ∧
      (call.package.start = ⟨above.length, a.length⟩ ∧
        call.close.stop = lastPlace above.length ((a ++ first) :: more)) ∧
      lexFrom Rule.all above.length a.length first more = (call.tokens, none) ∧
      call.groups.filterMap (namedArgument? source) = (m.written config).entries := by
  rw [OptionMap.writtenLines] at hwritten
  rw [OptionMap.written]
  by_cases hsize : m.size ≤ config.singleLineMax
  · rw [if_pos hsize] at hwritten ⊢
    obtain ⟨hfirst, rfl⟩ := List.cons.inj hwritten
    have hline : source.lines[above.length]? = some (a ++ first) := by
      rw [hlines, List.getElem?_append_right (Nat.le_refl _), Nat.sub_self]
      rfl
    obtain ⟨call, hcall, hplaces, hcode, hoptions⟩ :=
      exists_fullCall_joined hconfig.shape hm hne hfeeds above.length hfirst.symm hline
    refine ⟨call, hcall, hplaces, ?_, hoptions⟩
    rw [lexFrom, hcode]
    dsimp only
    rw [lexLines_nil, precede, List.append_nil]
  · rw [if_neg hsize] at hwritten ⊢
    obtain ⟨rfl, rfl⟩ := List.cons.inj hwritten
    have hitems : ∀ i line,
        (argumentLines config.indent (m.sorted.entries.map OptionMap.argument))[i]? = some line →
          source.lines[above.length + 1 + i]? = some line := by
      intro i line hi
      have hindex : above.length + 1 + i - above.length = i + 1 := by omega
      obtain ⟨hlt, -⟩ := List.getElem?_eq_some_iff.mp hi
      rw [hlines, List.getElem?_append_right (by omega), hindex, List.getElem?_cons_succ,
        List.append_assoc, List.getElem?_append_left hlt, hi]
    obtain ⟨call, hcall, ⟨hstart, hstop⟩, hread⟩ := exists_fullCall_stacked hconfig hm.sorted
      (OptionMap.sorted_entries_ne_nil hne) hfeeds above.length a.length rfl hitems
    refine ⟨call, hcall, ⟨hstart, ?_⟩, hread⟩
    rw [hstop, ← List.cons_append, Layout.lastPlace_append _ (List.cons_ne_nil _ _),
      List.length_cons, Nat.add_right_comm, Nat.add_assoc]
    rfl

/-! ## The characters of a written call -/

theorem IsName.isPlainChar {name : Text} (h : IsName name) : ∀ c ∈ name, isPlainChar c = true :=
  fun c hc => isPlainChar_of_isWordChar (h.2 c hc)

theorem isPlainChar_argument {entry : Text × Text} (hname : IsName entry.1)
    (hvalue : PlainValue entry.2) : ∀ c ∈ OptionMap.argument entry, isPlainChar c = true := by
  intro c hc
  rw [OptionMap.argument, List.mem_append, List.mem_append] at hc
  rcases hc with (hc | hc) | hc
  · exact hname.isPlainChar c hc
  · revert c
    decide
  · exact hvalue.isPlainChar c hc

theorem isPlainChar_argumentLines {indent : Text} (hindent : ∀ c ∈ indent, isPlainChar c = true)
    {items : List Text} (hitems : ∀ item ∈ items, ∀ c ∈ item, isPlainChar c = true) :
    ∀ line ∈ argumentLines indent items, ∀ c ∈ line, isPlainChar c = true := by
  fun_induction argumentLines indent items with
  | case1 => exact fun _ h => absurd h List.not_mem_nil
  | case2 last =>
    intro line hline c hc
    obtain rfl := List.mem_singleton.mp hline
    rcases List.mem_append.mp hc with hc | hc
    · exact hindent c hc
    · exact hitems last List.mem_cons_self c hc
  | case3 item next more ih =>
    intro line hline c hc
    rcases List.mem_cons.mp hline with rfl | hline
    · rw [List.mem_append, List.mem_append] at hc
      rcases hc with (hc | hc) | hc
      · exact hindent c hc
      · exact hitems item List.mem_cons_self c hc
      · obtain rfl := List.mem_singleton.mp hc
        decide
    · exact ih (fun i hi => hitems i (List.mem_cons_of_mem _ hi)) line hline c hc

namespace OptionMap

theorem writtenLines_ne_nil (config : Config) (m : OptionMap) : m.writtenLines config ≠ [] := by
  rw [writtenLines]
  split <;> exact List.cons_ne_nil _ _

/-- What is written has the characters of plain calls. -/
theorem IsPlain.isPlainChar {config : Config} (hconfig : config.IsPlain) {m : OptionMap}
    (hm : m.IsPlain) : ∀ line ∈ m.writtenLines config, ∀ c ∈ line, isPlainChar c = true := by
  have hindent : ∀ c ∈ config.indent, RmdOptions.isPlainChar c = true := by
    intro c hc
    rcases hconfig.indent c hc with rfl | rfl <;> decide
  have hhead : ∀ c ∈ config.shape.head, RmdOptions.isPlainChar c = true := by
    intro c hc
    simp only [CallShape.head, List.mem_append] at hc
    rcases hc with (((hc | hc) | hc) | hc) | hc
    · exact hconfig.shape.package.1.isPlainChar c hc
    · revert c
      decide
    · exact hconfig.shape.object.1.isPlainChar c hc
    · revert c
      decide
    · exact hconfig.shape.method.1.isPlainChar c hc
  have hitems (n : OptionMap) (hn : n.IsPlain) :
      ∀ item ∈ n.entries.map argument, ∀ c ∈ item, RmdOptions.isPlainChar c = true := by
    intro item hitem
    obtain ⟨entry, hentry, rfl⟩ := List.mem_map.mp hitem
    exact isPlainChar_argument (hn entry hentry).1 (hn entry hentry).2
  intro line hline c hc
  rw [writtenLines] at hline
  split at hline
  · obtain rfl := List.mem_singleton.mp hline
    rw [List.mem_append, List.mem_append, List.mem_cons, List.mem_singleton] at hc
    rcases hc with (hc | rfl | hc) | rfl
    · exact hhead c hc
    · decide
    · exact forall_mem_intercalate (by decide) (hitems m hm) c hc
    · decide
  · rw [List.mem_cons, List.mem_append, List.mem_singleton] at hline
    rcases hline with rfl | hline | rfl
    · rcases List.mem_append.mp hc with hc | hc
      · exact hhead c hc
      · obtain rfl := List.mem_singleton.mp hc
        decide
    · exact isPlainChar_argumentLines hindent (hitems m.sorted hm.sorted) line hline c hc
    · obtain rfl := List.mem_singleton.mp hc
      decide

theorem IsPlain.unbroken {config : Config} (hconfig : config.IsPlain) {m : OptionMap}
    (hm : m.IsPlain) : ∀ line ∈ m.writtenLines config ++ [[]], Text.Unbroken line := by
  intro line hline
  rcases List.mem_append.mp hline with hline | hline
  · exact fun c hc => (rules_of_isPlainChar (hm.isPlainChar hconfig line hline c hc)).1
  · obtain rfl := List.mem_singleton.mp hline
    exact fun c hc => absurd hc List.not_mem_nil

theorem render_eq_ofLines (config : Config) {m : OptionMap} (h : m.entries ≠ []) :
    m.render config = Text.ofLines (m.writtenLines config ++ [[]]) := by
  rw [render_eq config h, Text.ofLines_append _ (List.cons_ne_nil _ _), Text.ofLines_singleton,
    List.append_nil]

theorem IsPlain.feedsOnly {config : Config} (hconfig : config.IsPlain) {m : OptionMap}
    (hm : m.IsPlain) (hne : m.entries ≠ []) : (m.render config).FeedsOnly := by
  rw [render_eq_ofLines config hne]
  exact Text.feedsOnly_ofLines (hm.unbroken hconfig)

/-- Plain options are written without carriage returns. -/
theorem IsPlain.withLineFeeds_render {config : Config} (hconfig : config.IsPlain) {m : OptionMap}
    (hm : m.IsPlain) (hne : m.entries ≠ []) :
    (m.render config).withLineFeeds = m.render config :=
  Text.withLineFeeds_of_not_mem (hm.feedsOnly hconfig hne).return_not_mem

end OptionMap

/-! ## Reading undoes writing -/

/-- No code sets no options. -/
theorem readOptions_nil (lexer : Lexer) (shape : CallShape) :
    readOptions lexer shape [] = .ok .empty := by
  have hnone := (locate_eq shape (Cursor.start []) (Nat.zero_le _)).1
  rw [List.drop_nil, callAt?] at hnone
  rw [readOptions, lexer.codeTokens_nil]
  split
  · rfl
  · next hlocate =>
    rw [hlocate] at hnone
    cases hnone

/-- Three options, one of them a call with another call and a string inside. -/
def OptionMap.sample : OptionMap :=
  .ofList [("message".toList, "FALSE".toList),
    ("fig.cap".toList, "c(\"a, (b\", f(x))".toList), ("echo".toList, "TRUE".toList)]

theorem PlainValue.call_sample : PlainValue "c(\"a, (b\", f(x))".toList := by
  have hx : ∀ v ∈ [['x']], PlainValue v := by
    intro v hv
    obtain rfl := List.mem_singleton.mp hv
    exact .word (by decide)
  have harguments : ∀ v ∈ ["\"a, (b\"".toList, "f(x)".toList], PlainValue v := by
    intro v hv
    simp only [List.mem_cons, List.not_mem_nil, or_false] at hv
    rcases hv with rfl | rfl
    · exact .quoted (s := "a, (b".toList) (by decide +kernel)
    · exact .call (w := ['f']) (by decide) hx
  exact .call (w := ['c']) (by decide) harguments

theorem OptionMap.isPlain_sample : OptionMap.sample.IsPlain := by
  have hentries : OptionMap.sample.entries = [("message".toList, "FALSE".toList),
      ("fig.cap".toList, "c(\"a, (b\", f(x))".toList), ("echo".toList, "TRUE".toList)] := rfl
  intro entry hentry
  rw [hentries] at hentry
  simp only [List.mem_cons, List.not_mem_nil, or_false] at hentry
  rcases hentry with rfl | rfl | rfl
  · exact ⟨by decide +kernel, .word (by decide +kernel)⟩
  · exact ⟨by decide +kernel, .call_sample⟩
  · exact ⟨by decide +kernel, .word (by decide +kernel)⟩

/-- **Reading undoes writing.** The options that are read from what is written for plain options are
these options, in the order in which they are written: few enough to fit on a line in their own
order, more in the order of their names. -/
theorem Config.readOptions_render {config : Config} (hconfig : config.IsPlain) {m : OptionMap}
    (hm : m.IsPlain) :
    config.readOptions (m.render config) =
      .ok (if m.size ≤ config.singleLineMax then m else m.sorted) := by
  by_cases hne : m.entries = []
  · obtain rfl : m = .empty := OptionMap.ext hne
    have hsize : OptionMap.empty.size ≤ config.singleLineMax := Nat.zero_le _
    rw [if_pos hsize]
    exact readOptions_nil _ _
  · obtain ⟨first, more, hwritten⟩ := List.exists_cons_of_ne_nil (m.writtenLines_ne_nil config)
    have hlines : (m.render config).lines = (first :: more) ++ [[]] := by
      rw [OptionMap.render_eq_ofLines config hne, Text.lines_ofLines (by simp) fun line hline =>
        (hm.unbroken hconfig line hline).feed_not_mem, hwritten]
    -- behind the call there is only an empty line
    obtain ⟨call, hcall, -, htokens, hoptions⟩ := exists_fullCall hconfig hm hne
      (hm.feedsOnly hconfig hne) [] [[]] [] hwritten (by rw [hlines]; rfl)
    have hcode : Lexer.codeTokens (.closedBy config.closingFence) (m.render config) =
        [] ++ (call.tokens ++ []) := by
      have hwhole : lexLines Rule.all none 0 (first :: more) = (call.tokens, none) := htokens
      have hrules : (Lexer.closedBy config.closingFence).rules = Rule.all := rfl
      rw [Lexer.codeTokens_eq, hrules, hlines, lexLines_append, hwhole, lexLines_cons]
      simp [lexLine, abandoned]
    have hfound := hcall.callAt?_eq []
    rw [Config.readOptions, hcall.readOptions_eq hcode (fun t ht => absurd ht List.not_mem_nil)
      (by rw [hcode]; simpa using hfound), hoptions, OptionMap.ofList_entries, OptionMap.written]

/-- A string in a call may hold brackets and commas, and more than two options are sorted. -/
theorem Config.readOptions_render_sample :
    Config.IsPlain {} ∧ OptionMap.sample.IsPlain ∧
      OptionMap.sample.render {} =
        ("knitr::opts_chunk$set(\n\techo = TRUE,\n\tfig.cap = c(\"a, (b\", f(x)),\n" ++
          "\tmessage = FALSE\n)\n").toList ∧
      Config.readOptions {} (OptionMap.sample.render {}) =
        .ok (.ofList [("echo".toList, "TRUE".toList),
          ("fig.cap".toList, "c(\"a, (b\", f(x))".toList),
          ("message".toList, "FALSE".toList)]) := by
  have hread := Config.readOptions_render Config.isPlain_default OptionMap.isPlain_sample
  have hsorted : OptionMap.sample.sorted = .ofList [("echo".toList, "TRUE".toList),
      ("fig.cap".toList, "c(\"a, (b\", f(x))".toList),
      ("message".toList, "FALSE".toList)] := by
    refine OptionMap.ext ?_
    simp [OptionMap.sorted, OptionMap.sample, OptionMap.ofList, OptionMap.insertAll,
      OptionMap.insert, OptionMap.empty, Keyed.put, List.mergeSort,
      List.MergeSort.Internal.splitInTwo, Text.atMost]
  have hwritten : OptionMap.sample.render {} =
      ("knitr::opts_chunk$set(\n\techo = TRUE,\n\tfig.cap = c(\"a, (b\", f(x)),\n" ++
        "\tmessage = FALSE\n)\n").toList := by
    rw [OptionMap.render, if_neg (by decide +kernel), if_neg (by decide +kernel), hsorted]
    decide +kernel
  rw [if_neg (by decide +kernel), hsorted] at hread
  exact ⟨Config.isPlain_default, OptionMap.isPlain_sample, hwritten, hread⟩

end RmdOptions
