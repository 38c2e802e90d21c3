import Conformance.Proofs.NumeralText
import Conformance.Proofs.Quoting
import Conformance.Schema.Display
import Mathlib

/-!
# Type expressions can be read back

A type expression without names of object types and without references says which schema it
shows. A reader finds the schema again: a member is a quoted text, a word, a word with an
expression in angle brackets, or an expression in parentheses; an expression is a member, or
members with one and the same mark between them. Nothing that a schema shows inside quotes,
brackets or parentheses is taken for a mark, and a union or intersection that is not in
parentheses stands only where a bracket, a parenthesis or the text ends.
-/

namespace Conformance

/-- Whether a leaf is the literal of a double. -/
def Leaf.isDouble : Leaf → Bool
  | .literal (.number (.float _)) => true
  | _ => false

namespace Schema

/-- A schema is elementary if it is built from leaves other than literals of doubles, from
the schemas of all JSON values and of any values, and by lists, nullable schemas, records,
and unions and intersections of at least two members. -/
inductive Elementary : Schema → Prop
  /-- A leaf. -/
  | leaf {kind : Leaf} (h : kind.isDouble = false) : Elementary (.leaf kind)
  /-- The schema of all JSON values. -/
  | json : Elementary .json
  /-- The schema of any values. -/
  | any : Elementary .any
  /-- A list. -/
  | list {element : Schema} (h : Elementary element) : Elementary (.list element)
  /-- A nullable schema. -/
  | nullable {inner : Schema} (h : Elementary inner) : Elementary (.nullable inner)
  /-- A record. -/
  | record {entry : Schema} (h : Elementary entry) : Elementary (.record entry)
  /-- A union of at least two members. -/
  | union {members : List Schema} (hlength : 2 ≤ members.length)
    (h : ∀ member ∈ members, Elementary member) : Elementary (.union members)
  /-- An intersection of at least two members. -/
  | intersection {members : List Schema} (hlength : 2 ≤ members.length)
    (h : ∀ member ∈ members, Elementary member) : Elementary (.intersection members)

section Reader

/-- Whether a character may stand in a word: a name, an integer or a truth value. -/
def isWordChar (c : Char) : Bool := c.isAlphanum || c = '-'

/-- The schema that a name shows by itself. -/
def ofName? : String → Option Schema
  | "Number" => some (.leaf .number)
  | "Int" => some (.leaf .int)
  | "Float" => some (.leaf .float)
  | "String" => some (.leaf .string)
  | "Boolean" => some (.leaf .boolean)
  | "ID" => some (.leaf .id)
  | "true" => some (.literal (.bool true))
  | "false" => some (.literal (.bool false))
  | "Json" => some .json
  | "Any" => some .any
  | _ => none

/-- The schema that a word shows by itself: a word with a letter is a name, any other one an
integer. -/
def ofWord? (word : List Char) : Option Schema :=
  if word.any Char.isAlpha then ofName? (String.ofList word)
  else (String.ofList word).toInt?.bind fun n =>
    (Number.ofInt? n).map fun value => .literal (.number value)

/-- The schemas that a name puts around the expression in its angle brackets. -/
def container? : String → Option (Schema → Schema)
  | "List" => some .list
  | "Nullable" => some .nullable
  | "Record" => some .record
  | _ => none

/-- The schema of members with a mark between them. -/
def joined? (mark : Char) (members : List Schema) : Option Schema :=
  if mark = '|' then some (.union members)
  else if mark = '&' then some (.intersection members)
  else none

/-- The mark between two members, with what stands behind it. -/
def mark? : List Char → Option (Char × List Char)
  | ' ' :: mark :: ' ' :: rest => some (mark, rest)
  | _ => none

/-- What was read, if a character that closes it stands behind it. -/
def closed? (closing : Char) : Schema × List Char → Option (Schema × List Char)
  | (schema, c :: rest) => if c = closing then some (schema, rest) else none
  | (_, []) => none

/-- Reads an expression: a member, and after a mark the members behind it. -/
def readExpression? (readMember : List Char → Option (Schema × List Char))
    (readMembers : Char → List Char → Option (List Schema × List Char)) (cs : List Char) :
    Option (Schema × List Char) :=
  (readMember cs).bind fun (first, rest) =>
    match mark? rest with
    | none => some (first, rest)
    | some (mark, behind) => (readMembers mark behind).bind fun (others, rest) =>
      (joined? mark (first :: others)).map (·, rest)

mutual

/-- Reads a member, to a depth. -/
def readMember? : Nat → List Char → Option (Schema × List Char)
  | 0, _ => none
  | depth + 1, cs =>
    if cs.head? = some '"' then
      (Text.unquote? .between cs.tail).map fun (text, rest) =>
        (.literal (.string (String.ofList text)), rest)
    else if cs.head? = some '(' then
      (readExpression? (readMember? depth) (readMembers? depth) cs.tail).bind (closed? ')')
    else
      let word := cs.takeWhile isWordChar
      let rest := cs.dropWhile isWordChar
      if rest.head? = some '<' then
        (container? (String.ofList word)).bind fun container =>
          ((readExpression? (readMember? depth) (readMembers? depth) rest.tail).bind
            (closed? '>')).map fun (inner, rest) => (container inner, rest)
      else (ofWord? word).map (·, rest)

/-- Reads members with a mark between them, to a depth. -/
def readMembers? : Nat → Char → List Char → Option (List Schema × List Char)
  | 0, _, _ => none
  | depth + 1, mark, cs =>
    (readMember? depth cs).bind fun (member, rest) =>
      match mark? rest with
      | none => some ([member], rest)
      | some (other, behind) =>
        if other = mark then
          (readMembers? depth mark behind).map fun (members, rest) => (member :: members, rest)
        else none

end

/-- The schema that a type expression shows. -/
def ofText? (text : String) : Option Schema :=
  match readExpression? (readMember? text.toList.length) (readMembers? text.toList.length)
    text.toList with
  | some (schema, []) => some schema
  | _ => none

end Reader

/-- A row of characters that cannot continue what was read as a word or as a name in front
of a bracket. -/
def Stops (rest : List Char) : Prop := ∀ c ∈ rest.head?, isWordChar c = false ∧ c ≠ '<'

/-- A row of characters that begins with the end of what is around an expression. -/
def Closes (rest : List Char) : Prop := ∀ c ∈ rest.head?, c = '>' ∨ c = ')'

/-- What closes an expression does not continue a word. -/
theorem Closes.stops {rest : List Char} (h : Closes rest) : Stops rest := by
  intro c hc
  rcases h c hc with rfl | rfl <;> decide

/-- What closes an expression is no mark. -/
theorem Closes.mark?_eq_none {rest : List Char} (h : Closes rest) : mark? rest = none := by
  unfold mark?
  split
  · exact absurd (h ' ' rfl) (by decide)
  · rfl

/-- A word is read up to the first character that cannot stand in it. -/
theorem readMember?_word {word rest : List Char} (hne : word ≠ [])
    (hword : ∀ c ∈ word, isWordChar c = true) (hrest : ∀ c ∈ rest.head?, isWordChar c = false)
    (depth : Nat) :
    readMember? (depth + 1) (word ++ rest) =
      if rest.head? = some '<' then
        (container? (String.ofList word)).bind fun container =>
          ((readExpression? (readMember? depth) (readMembers? depth) rest.tail).bind
            (closed? '>')).map fun (inner, rest) => (container inner, rest)
      else (ofWord? word).map (·, rest) := by
  obtain ⟨c, more, rfl⟩ := List.exists_cons_of_ne_nil hne
  have hhead : ∀ other, isWordChar other = false → (c :: more ++ rest).head? ≠ some other := by
    rintro other hother ⟨⟩
    exact absurd (hword c List.mem_cons_self) (by rw [hother]; decide)
  rw [readMember?, if_neg (hhead '"' rfl), if_neg (hhead '(' rfl)]
  simp only [takeWhile_append_stop hword hrest, dropWhile_append_stop hword hrest]

/-- A schema can be read back from its text: as a member in front of what does not continue
it, and as an expression in front of what closes it. The text itself is deep enough. -/
structure ReadsBack (store : Store) (schema : Schema) : Prop where
  /-- It is read as a member, in parentheses if it needs them. -/
  member : ∀ depth rest,
    (parenthesize schema (schema.render store)).toList.length ≤ depth → Stops rest →
    readMember? depth ((parenthesize schema (schema.render store)).toList ++ rest) =
      some (schema, rest)
  /-- It is read as an expression. -/
  expression : ∀ depth rest, (schema.render store).toList.length ≤ depth → Closes rest →
    readExpression? (readMember? depth) (readMembers? depth)
      ((schema.render store).toList ++ rest) = some (schema, rest)

variable {store : Store} {schema : Schema}

/-- A schema that needs no parentheses is read as an expression if it is read as a member. -/
theorem ReadsBack.of_member (hplain : schema.needsParentheses = false)
    (h : ∀ depth rest, (schema.render store).toList.length ≤ depth → Stops rest →
      readMember? depth ((schema.render store).toList ++ rest) = some (schema, rest)) :
    ReadsBack store schema := by
  have hparen : parenthesize schema (schema.render store) = schema.render store := by
    rw [parenthesize, if_neg (by rw [hplain]; decide)]
  refine ⟨by rw [hparen]; exact h, fun depth rest hdepth hrest => ?_⟩
  rw [readExpression?, h depth rest hdepth hrest.stops, Option.bind_some]
  simp only [hrest.mark?_eq_none]

/-- A schema that needs parentheses is read as a member if it is read as an expression. -/
theorem ReadsBack.of_expression (hneeds : schema.needsParentheses = true)
    (h : ∀ depth rest, (schema.render store).toList.length ≤ depth → Closes rest →
      readExpression? (readMember? depth) (readMembers? depth)
        ((schema.render store).toList ++ rest) = some (schema, rest)) :
    ReadsBack store schema := by
  have hopening : "(".toList = ['('] := rfl
  have hclosing : ")".toList = [')'] := rfl
  have hparen : (parenthesize schema (schema.render store)).toList =
      '(' :: ((schema.render store).toList ++ [')']) := by
    rw [parenthesize, if_pos hneeds, String.toList_append, String.toList_append, hopening,
      hclosing, List.singleton_append, List.cons_append]
  refine ⟨fun depth rest hdepth _ => ?_, h⟩
  rw [hparen] at hdepth ⊢
  simp only [List.length_cons, List.length_append, List.length_nil] at hdepth
  cases depth with
  | zero => omega
  | succ depth =>
    have hinner := h depth (')' :: rest) (by omega) (by rintro c ⟨⟩; exact .inr rfl)
    rw [List.cons_append, List.append_assoc, List.singleton_append, readMember?, List.head?_cons,
      if_neg (by decide), if_pos rfl, List.tail_cons, hinner, Option.bind_some, closed?,
      if_pos rfl]

/-- A schema that is a word is read back. -/
theorem readsBack_word {word : String} (hrender : schema.render store = word)
    (hplain : schema.needsParentheses = false) (hne : word.toList ≠ [])
    (hchars : ∀ c ∈ word.toList, isWordChar c = true) (hword : ofWord? word.toList = some schema) :
    ReadsBack store schema := by
  subst hrender
  refine .of_member hplain fun depth rest hdepth hrest => ?_
  cases depth with
  | zero => exact absurd (List.length_eq_zero_iff.mp (Nat.le_zero.mp hdepth)) hne
  | succ depth =>
    have hbracket : rest.head? ≠ some '<' := fun h => (hrest '<' h).2 rfl
    rw [readMember?_word hne hchars (fun c hc => (hrest c hc).1), if_neg hbracket, hword]
    rfl

/-- A schema that is a name is read back. -/
theorem readsBack_name (name : String) (hrender : schema.render store = name)
    (hplain : schema.needsParentheses = false) (hne : name.toList ≠ [])
    (hchars : name.toList.all isWordChar = true) (hword : ofWord? name.toList = some schema) :
    ReadsBack store schema :=
  readsBack_word hrender hplain hne (List.all_eq_true.mp hchars) hword

/-- A name in front of brackets puts its container around what is read in them. -/
theorem readsBack_container (name : String) {container : Schema → Schema}
    (hrender : (container schema).render store = name ++ "<" ++ schema.render store ++ ">")
    (hcontainer : container? name = some container)
    (hplain : (container schema).needsParentheses = false) (hne : name.toList ≠ [])
    (hall : name.toList.all isWordChar = true) (h : ReadsBack store schema) :
    ReadsBack store (container schema) := by
  have hchars := List.all_eq_true.mp hall
  have hopening : "<".toList = ['<'] := rfl
  have hclosing : ">".toList = ['>'] := rfl
  refine .of_member hplain fun depth rest hdepth hrest => ?_
  rw [hrender, String.toList_append, String.toList_append, String.toList_append, hopening,
    hclosing] at hdepth ⊢
  simp only [List.length_append, List.length_singleton] at hdepth
  cases depth with
  | zero => omega
  | succ depth =>
    have htext : name.toList ++ ['<'] ++ (schema.render store).toList ++ ['>'] ++ rest =
        name.toList ++ '<' :: ((schema.render store).toList ++ '>' :: rest) := by simp
    have hinner := h.expression depth ('>' :: rest) (by omega) (by rintro c ⟨⟩; exact .inl rfl)
    rw [htext, readMember?_word hne hchars (by rintro c ⟨⟩; rfl), List.head?_cons, if_pos rfl,
      String.ofList_toList, hcontainer, List.tail_cons, Option.bind_some, hinner]
    rfl

/-- The text of two members or more is that of the first, a separator and that of the
others. -/
theorem toList_renderMembers (store : Store) {mark : Char} {separator : String}
    (hseparator : separator.toList = [' ', mark, ' ']) (first : Schema) {others : List Schema}
    (hne : others ≠ []) (rest : List Char) :
    (renderMembers store separator (first :: others)).toList ++ rest =
      (parenthesize first (first.render store)).toList ++
        ' ' :: mark :: ' ' :: ((renderMembers store separator others).toList ++ rest) := by
  rw [renderMembers, String.toList_append, String.toList_append, hseparator]
  · simp
  · exact hne

/-- The first of two members or more and the others are shorter than the whole. -/
theorem length_renderMembers (store : Store) {mark : Char} {separator : String}
    (hseparator : separator.toList = [' ', mark, ' ']) (first : Schema) {others : List Schema}
    (hne : others ≠ []) :
    (parenthesize first (first.render store)).toList.length +
        (renderMembers store separator others).toList.length + 3 =
      (renderMembers store separator (first :: others)).toList.length := by
  have hlength := congrArg List.length (toList_renderMembers store hseparator first hne [])
  simp only [List.append_nil, List.length_append, List.length_cons] at hlength
  rw [hlength, Nat.add_assoc]

/-- A mark does not continue a member. -/
theorem stops_mark (mark : Char) (rest : List Char) : Stops (' ' :: mark :: ' ' :: rest) := by
  rintro c ⟨⟩
  decide

/-- Members with a mark between them are read one after the other. -/
theorem readMembers?_renderMembers {mark : Char} {separator : String}
    (hseparator : separator.toList = [' ', mark, ' ']) {members : List Schema} (hne : members ≠ [])
    (h : ∀ member ∈ members, ReadsBack store member) :
    ∀ depth rest, (renderMembers store separator members).toList.length < depth → Closes rest →
      readMembers? depth mark ((renderMembers store separator members).toList ++ rest) =
        some (members, rest) := by
  induction members with
  | nil => exact absurd rfl hne
  | cons first others ih =>
    obtain ⟨hfirst, hothers⟩ := List.forall_mem_cons.mp h
    rintro (_ | depth) rest hdepth hrest
    · exact absurd hdepth (Nat.not_lt_zero _)
    by_cases hlast : others = []
    · subst hlast
      rw [renderMembers] at hdepth ⊢
      rw [readMembers?, hfirst.member depth rest (Nat.le_of_lt_succ hdepth) hrest.stops,
        Option.bind_some]
      simp only [hrest.mark?_eq_none]
    · have hlength := length_renderMembers store hseparator first hlast
      have hmore := ih hlast hothers depth rest (by omega) hrest
      rw [toList_renderMembers store hseparator first hlast, readMembers?,
        hfirst.member depth _ (by omega) (stops_mark mark _), Option.bind_some]
      simp only [mark?, if_true, hmore]
      rfl

/-- A schema whose text is that of its members, with a mark between them, is read back. -/
theorem readsBack_joined (separator : String) {mark : Char} {members : List Schema}
    (hseparator : separator.toList = [' ', mark, ' '])
    (hjoined : joined? mark members = some schema) (hneeds : schema.needsParentheses = true)
    (hrender : schema.render store = renderMembers store separator members)
    (hlength : 2 ≤ members.length) (h : ∀ member ∈ members, ReadsBack store member) :
    ReadsBack store schema := by
  obtain _ | ⟨first, others⟩ := members
  · cases hlength
  obtain ⟨hfirst, hothers⟩ := List.forall_mem_cons.mp h
  have hne : others ≠ [] := by
    rintro rfl
    cases Nat.lt_irrefl _ hlength
  refine .of_expression hneeds fun depth rest hdepth hrest => ?_
  rw [hrender] at hdepth ⊢
  have htext := length_renderMembers store hseparator first hne
  have hmore := readMembers?_renderMembers hseparator hne hothers depth rest (by omega) hrest
  rw [toList_renderMembers store hseparator first hne, readExpression?,
    hfirst.member depth _ (by omega) (stops_mark mark _), Option.bind_some]
  simp only [mark?, hmore, Option.bind_some, hjoined, Option.map_some]

/-- A digit is no letter. -/
theorem isAlpha_of_isDigit {c : Char} (h : c.isDigit = true) : c.isAlpha = false := by
  grind [Char.isDigit, Char.isAlpha, Char.isUpper, Char.isLower]

/-- The text of an integer has digits and a minus sign only. -/
theorem mem_toList_repr {n : Int} {c : Char} (h : c ∈ (Int.repr n).toList) :
    c.isDigit = true ∨ c = '-' := by
  have hdigit : ∀ k : Nat, c ∈ (Nat.repr k).toList → c.isDigit = true := by
    intro k hk
    rw [Nat.toList_repr] at hk
    exact Nat.isDigit_of_mem_toDigits (by decide) (by decide) hk
  rw [Int.repr_eq_if] at h
  split at h
  · exact .inl (hdigit _ h)
  · rw [String.toList_append] at h
    rcases List.mem_append.mp h with hsign | hdigits
    · exact .inr (List.mem_singleton.mp hsign)
    · exact .inl (hdigit _ hdigits)

/-- The text of an integer is not empty. -/
theorem toList_repr_ne_nil (n : Int) : (Int.repr n).toList ≠ [] := by
  rw [Int.repr_eq_if]
  split
  · rw [Nat.toList_repr]
    exact Nat.toDigits_ne_nil
  · rw [String.toList_append]
    exact List.append_ne_nil_of_left_ne_nil (by decide) _

/-- The literal of an integer is read back. -/
theorem readsBack_int (n : Int) (hn : inIntegerRange n) :
    ReadsBack store (literal (.number (.int n hn))) := by
  have hrender : (literal (.number (.int n hn))).render store = Int.repr n := by
    rw [literal, render]
    rfl
  refine readsBack_word hrender rfl (toList_repr_ne_nil n) (fun c hc => ?_) ?_
  · rcases mem_toList_repr hc with hdigit | rfl
    · simp [isWordChar, Char.isAlphanum, hdigit]
    · rfl
  · have hletter : (Int.repr n).toList.any Char.isAlpha = false := by
      rw [List.any_eq_false]
      intro c hc
      rcases mem_toList_repr hc with hdigit | rfl
      · rw [isAlpha_of_isDigit hdigit]
        decide
      · decide
    rw [ofWord?, hletter, if_neg (by decide), String.ofList_toList, Int.toInt?_repr,
      Option.bind_some, Number.ofInt?, dif_pos hn]
    rfl

/-- The literal of a text is read back, whatever characters the text has. -/
theorem readsBack_string (text : String) : ReadsBack store (literal (.string text)) := by
  have hrender : (literal (.string text)).render store = Text.quote text := by
    rw [literal, render]
    rfl
  refine .of_member rfl fun depth rest hdepth _ => ?_
  rw [hrender] at hdepth ⊢
  cases depth with
  | zero =>
    have hquoted := Text.toList_quote_append text []
    rw [List.length_eq_zero_iff.mp (Nat.le_zero.mp hdepth)] at hquoted
    cases hquoted
  | succ depth =>
    rw [Text.toList_quote_append, readMember?, List.head?_cons, if_pos rfl, List.tail_cons,
      Text.unquote?_quoteChars, Option.map_some]
    simp only [String.ofList_toList]

/-- A leaf that is no literal of a double is read back. -/
theorem readsBack_leaf {kind : Leaf} (h : kind.isDouble = false) :
    ReadsBack store (.leaf kind) := by
  match kind, h with
  | .number, _ => exact readsBack_name "Number" rfl rfl nofun rfl rfl
  | .int, _ => exact readsBack_name "Int" rfl rfl nofun rfl rfl
  | .float, _ => exact readsBack_name "Float" rfl rfl nofun rfl rfl
  | .string, _ => exact readsBack_name "String" rfl rfl nofun rfl rfl
  | .boolean, _ => exact readsBack_name "Boolean" rfl rfl nofun rfl rfl
  | .id, _ => exact readsBack_name "ID" rfl rfl nofun rfl rfl
  | .literal (.bool true), _ => exact readsBack_name "true" rfl rfl nofun rfl rfl
  | .literal (.bool false), _ => exact readsBack_name "false" rfl rfl nofun rfl rfl
  | .literal (.number (.int n hn)), _ => exact readsBack_int n hn
  | .literal (.string text), _ => exact readsBack_string text

/-- Elementary schemas are read back. -/
theorem Elementary.readsBack (h : schema.Elementary) (store : Store) : ReadsBack store schema := by
  induction h with
  | leaf h => exact readsBack_leaf h
  | json => exact readsBack_name "Json" rfl rfl nofun rfl rfl
  | any => exact readsBack_name "Any" rfl rfl nofun rfl rfl
  | list _ ih => exact readsBack_container "List" rfl rfl rfl nofun rfl ih
  | nullable _ ih => exact readsBack_container "Nullable" rfl rfl rfl nofun rfl ih
  | record _ ih => exact readsBack_container "Record" rfl rfl rfl nofun rfl ih
  | union hlength _ ih => exact readsBack_joined " | " rfl rfl rfl rfl hlength ih
  | intersection hlength _ ih => exact readsBack_joined " & " rfl rfl rfl rfl hlength ih

/-- The type expression of an elementary schema shows this schema. -/
theorem Elementary.ofText?_render (h : schema.Elementary) (store : Store) :
    ofText? (schema.render store) = some schema := by
  have hread := (h.readsBack store).expression _ [] le_rfl nofun
  rw [List.append_nil] at hread
  rw [ofText?, hread]

/-- Marks in quotes, parentheses and brackets stay with what is around them. -/
example : ofText? "List<(Int | \"a | b\") & Json>" =
    some (.list (.intersection [.union [.leaf .int, .literal (.string "a | b")], .json])) := rfl

/-- No cell of a store has a part in the text of an elementary schema. -/
theorem Elementary.render_eq (h : schema.Elementary) (store later : Store) :
    schema.render store = schema.render later := by
  induction h with
  | leaf | json | any => rfl
  | list _ ih | nullable _ ih | record _ ih => rw [render, render, ih]
  | union _ _ ih | intersection _ _ ih => rw [render, render, renderMembers_congr _ ih]

end Schema

/-- Type expressions of elementary schemas are unambiguous: two of them are the same, in
whatever stores, exactly if the schemas are. -/
theorem type_expressions_unambiguous {schema other : Schema} (h : schema.Elementary)
    (hother : other.Elementary) (store later : Store) :
    schema.render store = other.render later ↔ schema = other := by
  constructor
  · intro htext
    have hread := h.ofText?_render store
    rw [htext, hother.ofText?_render later] at hread
    exact (Option.some.inj hread).symm
  · rintro rfl
    exact h.render_eq store later

/-- A union whose first member is a text with a quote, a mark and a quote in it. -/
def quotedMark : Schema := .union [.literal (.string "a\" | \"b"), .list .any]

/-- A union with the texts on both sides of that mark as members of their own. -/
def threeMembers : Schema := .union [.literal (.string "a"), .literal (.string "b"), .list .any]

/-- The mark inside the quotes is not taken for one between members. -/
theorem quotedMark_unambiguous : quotedMark.Elementary ∧ threeMembers.Elementary ∧
    (quotedMark.render .empty = threeMembers.render .empty ↔ quotedMark = threeMembers) ∧
    quotedMark ≠ threeMembers := by
  have htext : ∀ text : String, (Schema.literal (.string text)).Elementary := fun _ => .leaf rfl
  have hquoted : quotedMark.Elementary := by
    refine .union le_rfl fun member hm => ?_
    obtain rfl | rfl : member = _ ∨ member = _ := by simpa using hm
    exacts [htext _, .list .any]
  have hthree : threeMembers.Elementary := by
    refine .union (by decide) fun member hm => ?_
    obtain rfl | rfl | rfl : member = _ ∨ member = _ ∨ member = _ := by simpa using hm
    exacts [htext _, htext _, .list .any]
  refine ⟨hquoted, hthree, type_expressions_unambiguous hquoted hthree .empty .empty, fun h => ?_⟩
  cases congrArg List.length (Schema.union.inj h)

end Conformance
