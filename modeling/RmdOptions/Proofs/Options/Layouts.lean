import RmdOptions.Proofs.Call.Opening
import RmdOptions.Proofs.Token.Stretch

/-!
# Calls in any layout

The arguments of a call may stand on one line or on many, with white space and comments between all
their tokens; some may be empty, or have no name, or a name in quotes. However they are written,
reading the call gives the named ones, in their order and with their values as they are written.

* `CallArgument`, `PlacedArgument`, `layoutCall` — a call as it may be written;
* `exists_readAs_unnamed` — a value alone is read as no option;
* `LexedTo`, `exists_lexedTo_joined` — what is read of the arguments, comments apart;
* `Config.readOptions_layoutCall` — **every layout of a call is read as its named arguments**.
-/

namespace RmdOptions

variable {source a t u rest : Text} {ts us shown : List Token}

/-! ## Calls as they may be written -/

/-- What may be written for an argument of a call. -/
inductive CallArgument where
  /-- nothing -/
  | empty
  /-- a value without a name -/
  | unnamed (value : Text)
  /-- a value under a name, which may stand in quotes, with layout on both sides of the equals
  sign -/
  | named (quote : Option Char) (name before after value : Text)

/-- A name, in quotes if there are any. -/
def quotedBy : Option Char → Text → Text
  | none, name => name
  | some quote, name => quote :: name ++ [quote]

namespace CallArgument

/-- The text of an argument. -/
def text : CallArgument → Text
  | empty => []
  | unnamed value => value
  | named quote name before after value =>
    quotedBy quote name ++ (before ++ (['='] ++ (after ++ value)))

/-- The option that an argument sets. -/
def option? : CallArgument → Option (Text × Text)
  | empty => none
  | unnamed _ => none
  | named _ name _ _ value => some (name, value)

/-- The names and values of plain arguments are plain, and nothing but layout stands between
them. -/
def IsPlain : CallArgument → Prop
  | empty => True
  | unnamed value => PlainValue value
  | named quote name before after value =>
    (∀ q ∈ quote, q ∈ ['\x60', '\x22', '\x27']) ∧ IsName name ∧ IsLayout before ∧
      IsLayout after ∧ PlainValue value

end CallArgument

/-- An argument of a call with the layout on both sides of it. -/
structure PlacedArgument where
  /-- the layout before the argument -/
  before : Text
  /-- the argument -/
  argument : CallArgument
  /-- the layout behind it -/
  after : Text

namespace PlacedArgument

/-- The text of an argument and of the layout around it. -/
def text (arg : PlacedArgument) : Text := arg.before ++ (arg.argument.text ++ arg.after)

/-- A plain argument with nothing but layout around it. -/
structure IsPlain (arg : PlacedArgument) : Prop where
  /-- the layout before the argument -/
  before : IsLayout arg.before
  /-- the argument -/
  argument : arg.argument.IsPlain
  /-- the layout behind it -/
  after : IsLayout arg.after

end PlacedArgument

/-- A call with some arguments. -/
def layoutCall (shape : CallShape) (qualifier : Qualifier) (args : List PlacedArgument) : Text :=
  shape.opening qualifier ++ ([','].intercalate (args.map PlacedArgument.text) ++ [')'])

/-! ## Characters -/

/-- No value starts with an equals sign. -/
theorem PlainValue.head?_ne_equals {v : Text} (h : PlainValue v) (rest : Text) :
    (v ++ rest).head? ≠ some '=' := by
  have hword {w : Text} (hw : IsWord w) (rest : Text) : (w ++ rest).head? ≠ some '=' := by
    obtain ⟨hne, hchars⟩ := hw
    obtain ⟨c, w, rfl⟩ := List.exists_cons_of_ne_nil hne
    rintro ⟨⟩
    exact absurd (hchars '=' List.mem_cons_self) (by decide)
  cases h with
  | word h => exact hword h rest
  | quoted _ => exact nofun
  | call h _ =>
    rw [List.append_assoc, List.append_assoc]
    exact hword h _

theorem CallShape.IsPlain.unbroken_opening {shape : CallShape} (h : shape.IsPlain)
    (qualifier : Qualifier) : (shape.opening qualifier).Unbroken := by
  have hdollar : Text.Unbroken ['$'] := by decide
  have hbracket : Text.Unbroken ['('] := by decide
  have hqualifier : (qualifier.text shape).Unbroken := by
    have hcolons (colons : Text) (hin : colons ∈ [[':', ':'], [':', ':', ':']]) :
        colons.Unbroken := by
      revert colons
      decide
    cases qualifier with
    | bare => exact fun c hc => absurd hc List.not_mem_nil
    | exported => exact h.package.1.unbroken.append (hcolons _ (by decide))
    | internal => exact h.package.1.unbroken.append (hcolons _ (by decide))
  exact hqualifier.append <| h.object.1.unbroken.append <| hdollar.append <|
    h.method.1.unbroken.append hbracket

/-- A plain name stays on its line when it is quoted. -/
theorem unbroken_quotedBy {quote : Option Char} (hquote : ∀ q ∈ quote, q ∈ ['\x60', '\x22', '\x27'])
    {name : Text} (hname : IsName name) : (quotedBy quote name).Unbroken := by
  cases quote with
  | none => exact hname.unbroken
  | some q =>
    have hmark : Text.Unbroken [q] := by
      have hquotes : ∀ q ∈ ['\x60', '\x22', '\x27'], Text.Unbroken [q] := by decide
      exact hquotes q (hquote q rfl)
    exact (hmark.append hname.unbroken).append hmark

theorem CallArgument.IsPlain.feedsOnly {arg : CallArgument} (h : arg.IsPlain) :
    arg.text.FeedsOnly := by
  have hequals : Text.FeedsOnly ['='] := by decide
  cases arg with
  | empty => exact fun c hc => absurd hc List.not_mem_nil
  | unnamed value => exact (PlainValue.unbroken h).feedsOnly
  | named quote name before after value =>
    obtain ⟨hquote, hname, hbefore, hafter, hvalue⟩ := h
    exact (unbroken_quotedBy hquote hname).feedsOnly.append <| hbefore.feedsOnly.append <|
      hequals.append <| hafter.feedsOnly.append hvalue.unbroken.feedsOnly

/-- Plain calls have no breaks but line feeds. -/
theorem feedsOnly_layoutCall {shape : CallShape} (h : shape.IsPlain) (qualifier : Qualifier)
    {args : List PlacedArgument} (hargs : ∀ arg ∈ args, arg.IsPlain) :
    (layoutCall shape qualifier args).FeedsOnly := by
  have hclose : Text.FeedsOnly [')'] := by decide
  have hcomma : Text.FeedsOnly [','] := by decide
  have hjoined : Text.FeedsOnly ([','].intercalate (args.map PlacedArgument.text)) := by
    refine forall_mem_intercalate hcomma fun item hitem => ?_
    obtain ⟨arg, harg, rfl⟩ := List.mem_map.mp hitem
    exact (hargs arg harg).before.feedsOnly.append <|
      (hargs arg harg).argument.feedsOnly.append (hargs arg harg).after.feedsOnly
  exact (h.unbroken_opening qualifier).feedsOnly.append (hjoined.append hclose)

/-! ## Values without a name -/

/-- An argument has no name if no equals sign stands behind its first token. -/
theorem namedArgument?_eq_none {group : List Token}
    (h : ∀ t ∈ group[1]?, t.is .operator ['='] = false) : namedArgument? source group = none := by
  match group with
  | [] => rfl
  | [_] => rfl
  | [_, _] => rfl
  | first :: equals :: next :: more =>
    rw [namedArgument?, if_neg (by simp [h equals rfl])]

/-- No token of a word is an equals sign. -/
theorem ReadAsValue.is_equals_of_word {row column : Nat} {w : Text} (hw : IsWord w)
    (h : ReadAsValue row column w ts []) : ∀ t ∈ ts, t.is .operator ['='] = false := by
  intro t ht
  rw [Bool.eq_false_iff]
  intro hequals
  obtain ⟨-, htext⟩ := Token.is_iff.mp hequals
  have hmem : '=' ∈ w ++ [] := h.reads.mem_text t ht '=' (by simp [htext])
  rw [List.append_nil] at hmem
  exact absurd (hw.2 _ hmem) (by decide)

/-- A value is read as no option when it stands alone. -/
theorem exists_readAs_unnamed (source : Text) {row column : Nat} {v : Text} (h : PlainValue v)
    (hrest : StopsWord rest) :
    ∃ ts, ReadAsValue row column v ts rest ∧ namedArgument? source ts = none := by
  cases h with
  | word hw =>
    obtain ⟨ts, hts⟩ : ∃ ts, ∀ rest, StopsWord rest → ReadAsValue row column v ts rest :=
      exists_readAs_word hw
    refine ⟨ts, hts rest hrest, namedArgument?_eq_none fun t ht => ?_⟩
    exact (hts [] stopsWord_nil).is_equals_of_word hw t (List.mem_of_getElem? ht)
  | quoted hs => exact ⟨_, ReadAsValue.of_token (by decide) (readAs_quoted hs), rfl⟩
  | @call w hw values hvalues =>
    obtain ⟨ts, hts⟩ : ∃ ts, ReadAsValue row column _ ts rest :=
      exists_readAs_value (.call hw hvalues) hrest
    obtain ⟨us, hus⟩ : ∃ us, ∀ rest, StopsWord rest → ReadAsValue row column w us rest :=
      exists_readAs_word hw
    refine ⟨ts, hts, namedArgument?_eq_none fun t ht => ?_⟩
    have htext : w ++ '(' :: [',', ' '].intercalate values ++ [')'] ++ rest =
        (w ++ ['(']) ++ ([',', ' '].intercalate values ++ [')'] ++ rest) := by simp
    have hbracket : ReadAs row column (w ++ ['(']) _
        ([',', ' '].intercalate values ++ [')'] ++ rest) :=
      (hus _ (stopsWord_cons (by decide) _)).reads.append
        (readAs_punctuation (c := '(') (by decide))
    obtain ⟨later, hlater⟩ := hts.reads.exists_lexCode_eq
    obtain ⟨more, hmore⟩ := hbracket.exists_lexCode_eq
    rw [htext, hmore] at hlater
    -- the second token belongs to the word, or is the bracket behind it
    have hsecond : (ts ++ later)[1]? = some t := by
      rw [List.getElem?_append_left (List.getElem?_eq_some_iff.mp ht).1]
      exact ht
    have hstart := (hus [] stopsWord_nil).start_eq
    have hword := (hus [] stopsWord_nil).is_equals_of_word hw
    rw [← hlater] at hsecond
    match us with
    | [] => cases hstart
    | [_] =>
      obtain rfl := Option.some.inj hsecond
      rfl
    | _ :: second :: _ =>
      obtain rfl := Option.some.inj hsecond
      exact hword second (by simp)

/-! ## What is read, comments apart -/

/-- Behind `a` and in front of `rest`, a text is read as some tokens, comments apart, and the
brackets in it are closed in it. -/
def LexedTo (a t : Text) (shown : List Token) (rest : Text) : Prop :=
  ∃ ts, LexedAs a t ts rest ∧ withoutComments ts = shown ∧ Closes ts

namespace LexedTo

theorem nil : LexedTo a [] [] rest := ⟨[], LexedAs.nil, rfl, Closes.nil⟩

theorem append {more : List Token} (ht : LexedTo a t shown (u ++ rest))
    (hu : LexedTo (a ++ t) u more rest) : LexedTo a (t ++ u) (shown ++ more) rest := by
  obtain ⟨ts, hts, rfl, hcloses⟩ := ht
  obtain ⟨us, hus, rfl, hcloses'⟩ := hu
  exact ⟨ts ++ us, hts.append hus, withoutComments_append ts us, hcloses.append hcloses'⟩

/-- Nothing is read of layout but comments. -/
theorem of_layout (h : IsLayout t) : LexedTo a t [] rest := by
  obtain ⟨ts, hts, hcomments⟩ := h.exists_lexedAs a rest
  refine ⟨ts, hts, ?_, Closes.of_comments hcomments⟩
  rw [withoutComments, List.filter_eq_nil_iff]
  exact fun t ht => by simp [hcomments t ht]

/-- Part of a line that belongs to one argument. -/
theorem of_readAs (hfeed : '\n' ∉ t)
    (h : ReadAs a.endPlace.row a.endPlace.column t ts rest.firstLine) (hneutral : Neutral 0 ts) :
    LexedTo a t ts rest :=
  ⟨ts, LexedAs.of_readAs hfeed h, hneutral.withoutComments_eq, hneutral.closing⟩

/-- A comma between two arguments. -/
theorem comma : LexedTo a [',']
    [tokenAt .punctuation a.endPlace.row a.endPlace.column [',']] rest :=
  ⟨_, LexedAs.of_readAs (by decide) (readAs_punctuation (by decide)), rfl,
    (Neutral.comma (is_tokenAt _ _ _ _)).closing⟩

/-- An equals sign in front of a value that may have layout before it. -/
theorem equals (h : rest.head? ≠ some '=') : LexedTo a ['=']
    [tokenAt .operator a.endPlace.row a.endPlace.column ['=']] rest := by
  have hne : ∀ c ∈ rest.head?, c ≠ '=' := by
    rintro c hc rfl
    exact h hc
  refine of_readAs (by decide) (readAs_equals fun heq => ?_) (neutral_tokenAt (by decide) _)
  exact Text.head?_firstLine hne '=' heq rfl

end LexedTo

/-! ## Names -/

/-- A name is one token, in whatever quotes, and is read without them. -/
theorem exists_readAs_quotedBy {quote : Option Char}
    (hquote : ∀ q ∈ quote, q ∈ ['\x60', '\x22', '\x27']) {name : Text} (hname : IsName name)
    (row column : Nat) (hrest : StopsWord rest) :
    ∃ kind, (kind ≠ .punctuation ∧ kind ≠ .comment ∧ kind ≠ .chunkEnd) ∧
      ReadAs row column (quotedBy quote name) [tokenAt kind row column (quotedBy quote name)]
        rest := by
  have hchar {c : Char} (hc : isWordChar c = false) : c ∉ name := fun hin => by
    rw [hname.2 c hin] at hc
    cases hc
  cases quote with
  | none =>
    exact ⟨_, TokenKind.ofLexeme_ne (Or.inl rfl) name, readAs_name row column hname hrest⟩
  | some q =>
    have hq := hquote q rfl
    simp only [List.mem_cons, List.not_mem_nil, or_false] at hq
    rcases hq with rfl | rfl | rfl
    · exact ⟨_, TokenKind.ofLexeme_ne (Or.inl rfl) _,
        readAs_quotedName (hchar (by decide)) (hchar (by decide))⟩
    · exact ⟨.string, by decide,
        readAs_string (Or.inl rfl) (hchar (by decide)) (hchar (by decide))⟩
    · exact ⟨.string, by decide,
        readAs_string (Or.inr rfl) (hchar (by decide)) (hchar (by decide))⟩

theorem unquote_quotedBy {quote : Option Char} (hquote : ∀ q ∈ quote, q ∈ ['\x60', '\x22', '\x27'])
    {name : Text} (hname : IsName name) :
    Text.unquote ['\x60', '\x22', '\x27'] (quotedBy quote name) = name := by
  cases quote with
  | none => exact unquote_name hname
  | some q => exact Text.unquote_quoted (hquote q rfl) name

/-! ## Arguments -/

/-- What is read of an argument in a call, comments apart, belongs together and sets its option. -/
def ReadAsArgument (source a t : Text) (option? : Option (Text × Text)) (rest : Text) : Prop :=
  ∃ group, LexedTo a t group rest ∧ Neutral 0 group ∧ namedArgument? source group = option?

/-- A value behind a name and an equals sign is read as it is written. -/
theorem exists_lexedTo_value (hfeeds : source.FeedsOnly) {value : Text} (hvalue : PlainValue value)
    (hsource : source = a ++ (value ++ rest)) (hrest : StopsWord rest) :
    ∃ ts, LexedTo a value ts rest ∧ Neutral 0 ts ∧
      ∀ first equals : Token, equals.is .operator ['='] = true →
        namedArgument? source (first :: equals :: ts) =
          some (Text.unquote ['\x60', '\x22', '\x27'] first.text, value) := by
  have hfeed := hvalue.unbroken.feed_not_mem
  obtain ⟨ts, hts⟩ : ∃ ts, ReadAsValue a.endPlace.row a.endPlace.column value ts rest.firstLine :=
    exists_readAs_value hvalue hrest.firstLine
  refine ⟨ts, LexedTo.of_readAs hfeed hts.reads hts.neutral, hts.neutral, ?_⟩
  intro first equals hequals
  have hslice : source.slice a.endPlace (a ++ value).endPlace = value := by
    rw [hsource] at hfeeds ⊢
    exact Text.slice_endPlace hfeeds hfeed
  rw [Text.endPlace_append hfeed] at hslice
  rw [namedArgument?_assignment hequals hts.start_eq hts.stop_eq, hslice]

/-- A named argument, with layout on both sides of the equals sign. -/
theorem readAsArgument_named (hfeeds : source.FeedsOnly) {quote : Option Char}
    (hquote : ∀ q ∈ quote, q ∈ ['\x60', '\x22', '\x27']) {name : Text} (hname : IsName name)
    {before after : Text} (hbefore : IsLayout before) (hafter : IsLayout after) {value : Text}
    (hvalue : PlainValue value)
    (hsource : source =
      a ++ (quotedBy quote name ++ (before ++ (['='] ++ (after ++ value))) ++ rest))
    (hrest : StopsWord rest) :
    ReadAsArgument source a (quotedBy quote name ++ (before ++ (['='] ++ (after ++ value))))
      (some (name, value)) rest := by
  -- the name
  have hstops : StopsWord (before ++ (['='] ++ (after ++ value)) ++ rest) := by
    rw [List.append_assoc]
    exact hbefore.stopsWord (stopsWord_cons (by decide) _)
  obtain ⟨kind, hkind, hreads⟩ := exists_readAs_quotedBy hquote hname a.endPlace.row
    a.endPlace.column hstops.firstLine
  have hfirst := LexedTo.of_readAs (unbroken_quotedBy hquote hname).feed_not_mem hreads
    (neutral_tokenAt hkind _)
  -- the equals sign
  have hhead : (after ++ value ++ rest).head? ≠ some '=' := by
    have hne : ∀ c ∈ (value ++ rest).head?, c ≠ '=' := by
      rintro c hc rfl
      exact hvalue.head?_ne_equals rest hc
    rw [List.append_assoc]
    exact fun heq => hafter.forall_head? (by decide) hne '=' heq rfl
  have hequals : LexedTo (a ++ quotedBy quote name ++ before) ['='] _ (after ++ value ++ rest) :=
    LexedTo.equals hhead
  -- the value
  have hcut : source =
      (a ++ quotedBy quote name ++ before ++ ['='] ++ after) ++ (value ++ rest) := by
    rw [hsource]
    simp
  obtain ⟨ts, hlast, hneutral, hnamed⟩ := exists_lexedTo_value hfeeds hvalue hcut hrest
  refine ⟨_, hfirst.append ((LexedTo.of_layout hbefore).append
    (hequals.append ((LexedTo.of_layout hafter).append hlast))), ?_, ?_⟩
  · exact (neutral_tokenAt hkind _).append ((neutral_tokenAt (by decide) _).append hneutral)
  · rw [List.nil_append, List.nil_append, List.singleton_append, List.singleton_append,
      hnamed _ _ (is_tokenAt _ _ _ _)]
    simp only [tokenAt, unquote_quotedBy hquote hname]

/-- **A plain argument is read as what it is**: its option if it has a name, and no option
otherwise. -/
theorem CallArgument.IsPlain.readAsArgument (hfeeds : source.FeedsOnly) {arg : CallArgument}
    (h : arg.IsPlain) (hsource : source = a ++ (arg.text ++ rest)) (hrest : StopsWord rest) :
    ReadAsArgument source a arg.text arg.option? rest := by
  cases arg with
  | empty => exact ⟨[], LexedTo.nil, Neutral.nil, rfl⟩
  | unnamed value =>
    have hvalue : PlainValue value := h
    obtain ⟨ts, hts, hnone⟩ : ∃ ts,
        ReadAsValue a.endPlace.row a.endPlace.column value ts rest.firstLine ∧
          namedArgument? source ts = none := exists_readAs_unnamed source hvalue hrest.firstLine
    exact ⟨ts, LexedTo.of_readAs hvalue.unbroken.feed_not_mem hts.reads hts.neutral, hts.neutral,
      hnone⟩
  | named quote name before after value =>
    obtain ⟨hquote, hname, hbefore, hafter, hvalue⟩ := h
    exact readAsArgument_named hfeeds hquote hname hbefore hafter hvalue hsource hrest

/-- Layout around an argument does not change what is read. -/
theorem PlacedArgument.IsPlain.readAsArgument (hfeeds : source.FeedsOnly) {arg : PlacedArgument}
    (h : arg.IsPlain) (hsource : source = a ++ (arg.text ++ rest)) (hrest : StopsWord rest) :
    ReadAsArgument source a arg.text arg.argument.option? rest := by
  have hinside : source = (a ++ arg.before) ++ (arg.argument.text ++ (arg.after ++ rest)) := by
    rw [hsource]
    simp [PlacedArgument.text]
  obtain ⟨group, hgroup, hneutral, hoption⟩ :=
    h.argument.readAsArgument hfeeds hinside (h.after.stopsWord hrest)
  have hwhole := (LexedTo.of_layout h.before).append
    (hgroup.append (LexedTo.of_layout h.after))
  rw [List.nil_append, List.append_nil] at hwhole
  exact ⟨group, hwhole, hneutral, hoption⟩

/-- **What is read of the arguments of a call**, comments apart: the arguments, each with its
option, and the commas between them. -/
theorem exists_lexedTo_joined (hfeeds : source.FeedsOnly) {args : List PlacedArgument}
    (hargs : ∀ arg ∈ args, arg.IsPlain)
    (hsource : source = a ++ ([','].intercalate (args.map PlacedArgument.text) ++ rest))
    (hrest : StopsWord rest) :
    ∃ groups inner, LexedTo a ([','].intercalate (args.map PlacedArgument.text)) inner rest ∧
      Separated groups inner ∧ (∀ group ∈ groups, Neutral 0 group) ∧
      groups.filterMap (namedArgument? source) = args.filterMap (·.argument.option?) := by
  induction args generalizing a with
  | nil =>
    refine ⟨[[]], [], LexedTo.nil, .last [], ?_, rfl⟩
    rw [List.forall_mem_singleton]
    exact Neutral.nil
  | cons arg more ih =>
    have harg := hargs arg List.mem_cons_self
    cases more with
    | nil =>
      rw [List.map_singleton, List.intercalate_singleton] at hsource ⊢
      obtain ⟨group, hgroup, hneutral, hoption⟩ := harg.readAsArgument hfeeds hsource hrest
      refine ⟨[group], group, hgroup, .last group, ?_, ?_⟩
      · rwa [List.forall_mem_singleton]
      · simp only [List.filterMap_cons, List.filterMap_nil, hoption]
    | cons next more =>
      obtain ⟨joined, hjoined⟩ : ∃ joined,
          joined = [','].intercalate ((next :: more).map PlacedArgument.text) := ⟨_, rfl⟩
      have hjoin : [','].intercalate ((arg :: next :: more).map PlacedArgument.text) =
          arg.text ++ ([','] ++ joined) := by
        rw [hjoined]
        simp [List.intercalate]
      rw [hjoin] at hsource ⊢
      rw [← hjoined] at ih
      have hfirst : source = a ++ (arg.text ++ (',' :: (joined ++ rest))) := by
        rw [hsource]
        simp
      have hmore : source = (a ++ arg.text ++ [',']) ++ (joined ++ rest) := by
        rw [hsource]
        simp
      obtain ⟨group, hgroup, hneutral, hoption⟩ :=
        harg.readAsArgument hfeeds hfirst (stopsWord_cons (by decide) _)
      obtain ⟨groups, inner, hinner, hseparated, hneutrals, hoptions⟩ :=
        ih (fun arg harg => hargs arg (List.mem_cons_of_mem _ harg)) hmore
      refine ⟨group :: groups, _, hgroup.append (LexedTo.comma.append hinner),
        .cons group (is_tokenAt _ _ _ _) hseparated, ?_, ?_⟩
      · exact List.forall_mem_cons.mpr ⟨hneutral, hneutrals⟩
      · rw [List.filterMap_cons, List.filterMap_cons (a := arg), hoption, hoptions]

/-! ## The call -/

/-- The options of a call in any layout, when the names in its head are plain. -/
theorem readOptions_of_layout {shape : CallShape} (h : shape.IsPlain)
    (hne : shape.package ≠ shape.object) (fence : Text) (qualifier : Qualifier)
    {args : List PlacedArgument} (hargs : ∀ arg ∈ args, arg.IsPlain) :
    readOptions (.closedBy fence) shape (layoutCall shape qualifier args) =
      .ok (.ofList (args.filterMap (·.argument.option?))) := by
  obtain ⟨source, hsource⟩ : ∃ source, source = layoutCall shape qualifier args := ⟨_, rfl⟩
  have hfeeds := feedsOnly_layoutCall h qualifier hargs
  rw [← hsource] at hfeeds ⊢
  rw [layoutCall] at hsource
  obtain ⟨before, object, dollar, method, bracket, hleads, hopening⟩ :=
    exists_readAs_opening h hne 0 0 qualifier
  -- the arguments
  obtain ⟨groups, inner, ⟨ts, hts, hinner, hcloses⟩, hseparated, hneutral, hoptions⟩ :=
    exists_lexedTo_joined hfeeds hargs hsource (stopsWord_cons (by decide) [])
  -- the whole call
  obtain ⟨close, hcloseis, hclose⟩ : ∃ close : Token, close.is .punctuation [')'] = true ∧
      LexedAs (shape.opening qualifier ++ [','].intercalate (args.map PlacedArgument.text)) [')']
        [close] [] :=
    ⟨_, is_tokenAt _ _ _ _, LexedAs.of_readAs (by decide) (readAs_punctuation (by decide))⟩
  have hfirst (rest : Text) : LexedAs [] (shape.opening qualifier)
      (before ++ [object, dollar, method, bracket]) rest :=
    LexedAs.of_readAs (h.unbroken_opening qualifier).feed_not_mem (hopening _)
  have htokens := ((hfirst _).append (hts.append hclose)).codeTokens_eq fence
  rw [← hsource, List.append_assoc] at htokens
  rw [hleads.readOptions_eq htokens (hcloses.closingOffset?_eq hcloseis []),
    ← splitArguments_withoutComments, hinner, hseparated.splitArguments_eq hneutral, hoptions]

/-- **Every layout of a call is read as its named arguments**, in their order and with their values
as they are written. Empty arguments and those without a name are passed over, and so are white
space and comments, whatever the comments say. -/
theorem Config.readOptions_layoutCall (qualifier : Qualifier) {args : List PlacedArgument}
    (hargs : ∀ arg ∈ args, arg.IsPlain) :
    Config.readOptions {} (layoutCall (Config.shape {}) qualifier args) =
      .ok (.ofList (args.filterMap (·.argument.option?))) :=
  readOptions_of_layout Config.isPlain_default.shape (by decide) _ qualifier hargs

/-- A comment with a bracket and a quote, a call with commas inside, an empty argument, one without
a name that holds an equals sign, and a name that is set twice. -/
def PlacedArgument.sample : List PlacedArgument :=
  [⟨'\n' :: ('#' :: " see (\"".toList ++ '\n' :: ['\t']),
      .named (some '\x60') "fig.cap".toList [' '] ('#' :: "it's".toList ++ ['\n'])
        "c(\"a, (b\", f(x))".toList, [' ']⟩,
    ⟨[' '], .empty, []⟩,
    ⟨[], .unnamed "\"x = 1\"".toList, ['\n']⟩,
    ⟨[], .named none "echo".toList [] [] "TRUE".toList, []⟩,
    ⟨[' '], .named (some '\x27') "fig.cap".toList ['\n'] ['\t'] "\"b\"".toList, []⟩]

theorem PlacedArgument.isPlain_sample : ∀ arg ∈ PlacedArgument.sample, arg.IsPlain := by
  have hquoted : PlainValue "\"x = 1\"".toList := .quoted (s := "x = 1".toList) (by decide +kernel)
  have hlast : PlainValue "\"b\"".toList := .quoted (s := ['b']) (by decide)
  have hword : PlainValue "TRUE".toList := .word (by decide +kernel)
  have hcaption : IsName "fig.cap".toList := by decide +kernel
  have hecho : IsName "echo".toList := by decide +kernel
  have hwhite {c : Char} (hc : c ∈ [' ', '\t', '\n']) : IsLayout [c] := .white hc .nil
  have hspace : IsLayout [' '] := hwhite (by decide)
  have htab : IsLayout ['\t'] := hwhite (by decide)
  have hfeed : IsLayout ['\n'] := hwhite (by decide)
  have hbracket : IsLayout ('#' :: " see (\"".toList ++ '\n' :: ['\t']) :=
    .comment (by decide +kernel) htab
  have happos : IsLayout ('#' :: "it's".toList ++ '\n' :: []) := .comment (by decide +kernel) .nil
  have hquotes : ∀ q ∈ ['\x60', '\x22', '\x27'], ∀ p ∈ some q, p ∈ ['\x60', '\x22', '\x27'] := by
    rintro q hq p ⟨⟩
    exact hq
  rw [sample, List.forall_mem_cons, List.forall_mem_cons, List.forall_mem_cons,
    List.forall_mem_cons, List.forall_mem_singleton]
  refine ⟨⟨.white (by decide) hbracket, ?_, hspace⟩, ⟨hspace, trivial, .nil⟩,
    ⟨.nil, hquoted, hfeed⟩, ⟨.nil, ?_, .nil⟩, ⟨hspace, ?_, .nil⟩⟩
  · exact ⟨hquotes _ (by decide), hcaption, hspace, happos, .call_sample⟩
  · exact ⟨nofun, hecho, .nil, .nil, hword⟩
  · exact ⟨hquotes _ (by decide), hcaption, hfeed, htab, hlast⟩

/-- A name that is set twice keeps its place and has its last value. -/
theorem Config.readOptions_layoutCall_sample :
    (∀ arg ∈ PlacedArgument.sample, arg.IsPlain) ∧
      layoutCall (Config.shape {}) .internal PlacedArgument.sample =
        ("knitr:::opts_chunk$set(\n# see (\"\n\t\x60fig.cap\x60 =#it's\nc(\"a, (b\", f(x)) , ," ++
          "\"x = 1\"\n,echo=TRUE, 'fig.cap'\n=\t\"b\")").toList ∧
      Config.readOptions {} (layoutCall (Config.shape {}) .internal PlacedArgument.sample) =
        .ok (.ofList [("fig.cap".toList, "\"b\"".toList), ("echo".toList, "TRUE".toList)]) := by
  have hread := Config.readOptions_layoutCall .internal PlacedArgument.isPlain_sample
  have hoptions : OptionMap.ofList (PlacedArgument.sample.filterMap (·.argument.option?)) =
      .ofList [("fig.cap".toList, "\"b\"".toList), ("echo".toList, "TRUE".toList)] := by
    decide +kernel
  rw [hoptions] at hread
  exact ⟨PlacedArgument.isPlain_sample, by decide +kernel, hread⟩

end RmdOptions
