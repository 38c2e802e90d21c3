import Conformance.Path

/-!
# Pointers lead where paths lead

The pointer of a path writes the text of each segment after a slash, with the tildes and then
the slashes in it replaced. Splitting it at the slashes and undoing the replacements in the
opposite order gives these texts again, so a pointer says as much as the texts do. Looking it
up in a document leads to the node of the path, also where a key looks like something that was
replaced.
-/

namespace Conformance

namespace Text

/-- A text with every occurrence of a character replaced. -/
def replaceChar (c : Char) (replacement cs : List Char) : List Char :=
  cs.flatMap fun d => if d = c then replacement else [d]

/-- A text with every occurrence of one character before another replaced, from left to right. -/
def replacePair (first second replacement : Char) : List Char → List Char
  | c :: d :: rest =>
    if c = first ∧ d = second then replacement :: replacePair first second replacement rest
    else c :: replacePair first second replacement (d :: rest)
  | cs => cs

section Pairs

variable {first second replacement c : Char} {rest : List Char}

/-- At the pair it is replaced. -/
theorem replacePair_pair : replacePair first second replacement (first :: second :: rest) =
    replacement :: replacePair first second replacement rest := by
  rw [replacePair, if_pos ⟨rfl, rfl⟩]

/-- Anywhere else the next character stays. -/
theorem replacePair_cons (h : c ≠ first ∨ rest.head? ≠ some second) :
    replacePair first second replacement (c :: rest) =
      c :: replacePair first second replacement rest := by
  cases rest with
  | nil => rfl
  | cons d rest =>
    rw [replacePair, if_neg]
    rintro ⟨rfl, rfl⟩
    exact h.elim (· rfl) (· rfl)

/-- A character that stands first afterwards is the replacement, or stood first before. -/
theorem head?_replacePair (h : c ≠ replacement)
    (hc : (replacePair first second replacement rest).head? = some c) : rest.head? = some c := by
  unfold replacePair at hc
  split at hc
  · split at hc
    · exact absurd (Option.some.inj hc).symm h
    · exact hc
  · exact hc

end Pairs

end Text

namespace Json.Pointer

/-- Escaping replaces the tildes, and then the slashes. -/
theorem escape_eq_replaceChar (cs : List Char) :
    escape cs = Text.replaceChar '/' ['~', '1'] (Text.replaceChar '~' ['~', '0'] cs) := by
  have hchar : ∀ c : Char, escapeChar c =
      Text.replaceChar '/' ['~', '1'] (if c = '~' then ['~', '0'] else [c]) := by
    intro c
    unfold escapeChar
    by_cases ht : c = '~'
    · rw [if_pos ht, if_pos ht]
      rfl
    · rw [if_neg ht, if_neg ht, Text.replaceChar, List.flatMap_singleton]
  rw [escape, Text.replaceChar, Text.replaceChar, List.flatMap_assoc]
  exact congrArg (List.flatMap · cs) (funext hchar)

/-- Undoing the escapes puts slashes back, and then the tildes. -/
theorem unescape_eq_replacePair (cs : List Char) :
    unescape cs = Text.replacePair '~' '0' '~' (Text.replacePair '~' '1' '/' cs) := by
  fun_induction unescape cs with
  | case1 rest ih =>
    have hone : ('0' :: rest).head? ≠ some '1' := by
      rw [List.head?_cons]
      decide
    have hzero : Text.replacePair '~' '1' '/' ('0' :: rest) =
        '0' :: Text.replacePair '~' '1' '/' rest := Text.replacePair_cons (.inl (by decide))
    rw [Text.replacePair_cons (.inr hone), hzero, Text.replacePair_pair, ih]
  | case2 rest ih =>
    rw [Text.replacePair_pair, Text.replacePair_cons (.inl (by decide)), ih]
  | case3 c rest hzero hone ih =>
    by_cases ht : c = '~'
    · have hone : rest.head? ≠ some '1' := fun hc =>
        (List.head?_eq_some_iff.mp hc).elim fun _ heq => hone _ ht heq
      have hzero : rest.head? ≠ some '0' := fun hc =>
        (List.head?_eq_some_iff.mp hc).elim fun _ heq => hzero _ ht heq
      -- The first pass makes no zero, so what follows the tilde is no zero after it, either.
      rw [Text.replacePair_cons (.inr hone), Text.replacePair_cons (.inr fun hc =>
        hzero (Text.head?_replacePair (by decide) hc)), ih]
    · rw [Text.replacePair_cons (.inl ht), Text.replacePair_cons (.inl ht), ih]
  | case4 => rfl

/-- The tokens of a pointer are what the slashes separate. -/
theorem tokens_eq_splitOn (cs : List Char) : tokens cs = cs.splitOn '/' := by
  fun_induction tokens cs with
  | case1 => rfl
  | case2 rest ih =>
    rw [List.splitOn_cons_eq_if_modifyHead, if_pos (by decide), ih]
  | case3 c rest hc token more htokens ih =>
    rw [List.splitOn_cons_eq_if_modifyHead, if_neg (by simpa using hc), ← ih, htokens,
      List.modifyHead_cons]
  | case4 c rest hc htokens ih =>
    exact absurd (ih.symm.trans htokens) (List.splitOn_ne_nil _ _)

/-- What is escaped has no slash. -/
theorem slash_not_mem_escape (cs : List Char) : '/' ∉ escape cs := by
  intro hslash
  obtain ⟨c, -, hc⟩ := List.mem_flatMap.mp hslash
  unfold escapeChar at hc
  split at hc
  · exact absurd hc (by decide)
  · split at hc
    · exact absurd hc (by decide)
    · rename_i hne
      exact hne (List.mem_singleton.mp hc).symm

/-- A number is not written with a zero in front. -/
theorem head?_toDigits {n : Nat} (h : 0 < n) : (Nat.toDigits 10 n).head? ≠ some '0' := by
  induction n using Nat.strongRecOn with
  | _ n ih =>
    rw [Nat.toDigits_eq_if (by decide)]
    by_cases hn : n < 10
    · rw [if_pos hn, List.head?_singleton]
      exact fun hzero => Nat.ne_of_gt h (Nat.digitChar_eq_zero.mp (Option.some.inj hzero))
    · rw [if_neg hn, List.head?_append]
      intro hzero
      rcases Option.or_eq_some_iff.mp hzero with hfirst | ⟨hnone, -⟩
      · exact ih (n / 10) (by omega) (by omega) hfirst
      · exact Nat.toDigits_ne_nil (List.head?_eq_none_iff.mp hnone)

/-- A position is read as it is written. -/
theorem index?_toString (position : Nat) : index? (toString position).toList = some position := by
  rw [Nat.toString_eq_repr, Nat.toList_repr]
  have hdigits : (Nat.toDigits 10 position).all Char.isDigit = true :=
    List.all_eq_true.mpr fun _ => Nat.isDigit_of_mem_toDigits (by decide) (by decide)
  have hempty : (Nat.toDigits 10 position).isEmpty = false :=
    List.isEmpty_eq_false_iff.mpr Nat.toDigits_ne_nil
  have hzero : ¬ ((Nat.toDigits 10 position).head? = some '0' ∧
      (Nat.toDigits 10 position).length ≠ 1) := by
    rintro ⟨hhead, hlength⟩
    rcases Nat.eq_zero_or_pos position with rfl | hpos
    · exact hlength rfl
    · exact head?_toDigits hpos hhead
  rw [index?, hempty, hdigits, if_neg (by decide), if_neg hzero]
  exact congrArg some Nat.ofDigitChars_ten_toDigits

/-- A pointer with a slash in front leads along what the slashes separate behind it. -/
theorem lookup?_of_slash {pointer : String} {rest : List Char}
    (h : pointer.toList = '/' :: rest) (document : Json) :
    lookup? pointer document = follow? ((rest.splitOn '/').map unescape) document := by
  rw [lookup?, h, ← tokens_eq_splitOn]
  rfl

/-- The texts in a pointer: what follows each slash, with the slashes and then the tildes put
back. The empty pointer has none. -/
def texts (pointer : String) : List String :=
  (pointer.toList.splitOn '/').tail.map fun token =>
    String.ofList (Text.replacePair '~' '0' '~' (Text.replacePair '~' '1' '/' token))

end Json.Pointer

/-- There is no slash inside a token. -/
theorem Segment.slash_not_mem_token (segment : Segment) : '/' ∉ segment.token :=
  Json.Pointer.slash_not_mem_escape _

/-- The token of a segment denotes its text. -/
theorem Segment.unescape_token (segment : Segment) :
    Json.Pointer.unescape segment.token = segment.text.toList :=
  Json.Pointer.unescape_escape _

namespace Path

/-- The pointer of a path depends on the texts of its segments alone. -/
theorem pointerChars_eq_flatMap_text (path : Path) : path.pointerChars =
    (path.map Segment.text).flatMap fun text => '/' :: Json.Pointer.escape text.toList := by
  rw [List.flatMap_map]
  rfl

/-- Tokens are taken from a pointer as they were put there. -/
theorem splitOn_pointerChars {token : List Char} (h : '/' ∉ token) (path : Path) :
    (token ++ path.pointerChars).splitOn '/' = token :: path.map Segment.token := by
  induction path generalizing token with
  | nil => rw [pointerChars, List.flatMap_nil, List.append_nil, List.splitOn_eq_singleton h,
      List.map_nil]
  | cons segment rest ih =>
    rw [pointerChars, List.flatMap_cons, ← pointerChars, List.cons_append,
      List.splitOn_append_cons_self_of_not_mem h,
      ih segment.slash_not_mem_token, List.map_cons]

/-- The texts in the pointer of a path are those of its segments. -/
theorem texts_pointer (path : Path) :
    Json.Pointer.texts path.pointer = path.map Segment.text := by
  have htokens : path.pointerChars.splitOn '/' = [] :: path.map Segment.token :=
    splitOn_pointerChars List.not_mem_nil path
  rw [Json.Pointer.texts, pointer, String.toList_ofList, htokens, List.tail_cons, List.map_map]
  refine List.map_congr_left fun segment _ => ?_
  rw [Function.comp_apply, ← Json.Pointer.unescape_eq_replacePair, segment.unescape_token,
    String.ofList_toList]

/-- Paths have one pointer exactly if their segments read the same. -/
theorem pointer_inj_iff {path other : Path} :
    path.pointer = other.pointer ↔ path.map Segment.text = other.map Segment.text := by
  constructor
  · intro h
    rw [← texts_pointer, ← texts_pointer, h]
  · intro h
    rw [pointer, pointer, pointerChars_eq_flatMap_text, pointerChars_eq_flatMap_text, h]

/-- The texts of the segments lead to the node of the path. -/
theorem follow?_texts {path : Path} {document node : Json} (h : path.node? document = some node) :
    Json.Pointer.follow? (path.map fun segment => segment.text.toList) document = some node := by
  induction path generalizing document with
  | nil => exact h
  | cons segment rest ih =>
    cases segment with
    | key name =>
      cases document with
      | object entries =>
        obtain ⟨child, hchild, hnode⟩ := Option.bind_eq_some_iff.mp h
        rw [List.map_cons, Json.Pointer.follow?, Segment.text, String.ofList_toList, hchild]
        exact ih hnode
      | _ => cases h
    | index position =>
      cases document with
      | array items =>
        obtain ⟨child, hchild, hnode⟩ := Option.bind_eq_some_iff.mp h
        rw [List.map_cons, Json.Pointer.follow?, Segment.text, Json.Pointer.index?_toString,
          Option.bind_some, hchild]
        exact ih hnode
      | _ => cases h

/-- What the pointer of a path is looked up along. -/
theorem lookup?_pointer (path : Path) (document : Json) :
    Json.Pointer.lookup? path.pointer document =
      Json.Pointer.follow? (path.map fun segment => segment.text.toList) document := by
  have htexts : (path.map Segment.token).map Json.Pointer.unescape =
      path.map fun segment => segment.text.toList := by
    rw [List.map_map]
    exact List.map_congr_left fun segment _ => segment.unescape_token
  cases path with
  | nil => rfl
  | cons segment rest =>
    have hchars : (pointer (segment :: rest)).toList =
        '/' :: (segment.token ++ pointerChars rest) := String.toList_ofList
    rw [Json.Pointer.lookup?_of_slash hchars,
      splitOn_pointerChars segment.slash_not_mem_token rest]
    exact congrArg (Json.Pointer.follow? · document) htexts

end Path

/-- The pointer of a path writes each of its texts after a slash, the tildes replaced before
the slashes. If the path leads to a node of a document, so does the pointer, whatever the keys
are. The texts are read back from the pointer, so that paths have one pointer exactly if their
segments read the same. -/
theorem pointer_finds_node (path : Path) :
    path.pointer = String.ofList (path.flatMap fun segment =>
        '/' :: Text.replaceChar '/' ['~', '1']
          (Text.replaceChar '~' ['~', '0'] segment.text.toList)) ∧
      (∀ document node : Json, path.node? document = some node →
        Json.Pointer.lookup? path.pointer document = some node) ∧
      Json.Pointer.texts path.pointer = path.map Segment.text ∧
      ∀ other : Path,
        path.pointer = other.pointer ↔ path.map Segment.text = other.map Segment.text := by
  refine ⟨?_, ?_, path.texts_pointer, fun _ => Path.pointer_inj_iff⟩
  · refine congrArg String.ofList (congrArg (List.flatMap · path) (funext fun segment => ?_))
    rw [Segment.token, Json.Pointer.escape_eq_replaceChar]
  · intro document node h
    rw [path.lookup?_pointer]
    exact Path.follow?_texts h

/-- A text in a list, behind a key with a slash, a key that looks like an escape and an empty
key. -/
def awkwardKeys : Json :=
  .object [("a/b", .object [("~1", .array [.null, .object [("", .string "found")]])])]

/-- The pointer of the path to the text finds it, and reads as the keys and the position. -/
theorem awkwardKeys_found :
    Json.Pointer.lookup? "/a~1b/~01/1/" awkwardKeys = some (.string "found") ∧
      Json.Pointer.texts "/a~1b/~01/1/" = ["a/b", "~1", "1", ""] := by
  obtain ⟨-, hfinds, htexts, -⟩ :=
    pointer_finds_node [.key "a/b", .key "~1", .index 1, .key ""]
  have hpointer : Path.pointer [.key "a/b", .key "~1", .index 1, .key ""] = "/a~1b/~01/1/" := by
    decide
  rw [hpointer] at hfinds htexts
  exact ⟨hfinds awkwardKeys (.string "found") rfl, htexts⟩

end Conformance
