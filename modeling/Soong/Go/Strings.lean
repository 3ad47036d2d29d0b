import Soong.Lib.ListOrder

namespace Go.Strings

/-- `strings.HasPrefix`. -/
def hasPrefix (s pre : String) : Bool :=
  pre.toList.isPrefixOf s.toList

/-- `strings.TrimPrefix`: `s` without the leading `pre`, or `s` itself. -/
def trimPrefix (s pre : String) : String :=
  if hasPrefix s pre then String.ofList (s.toList.drop pre.length) else s

/-- `strings.Contains`. -/
def contains (s substr : String) : Bool :=
  decide (substr.toList <:+: s.toList)

/-- `strings.HasSuffix`. -/
def hasSuffix (s suf : String) : Bool :=
  suf.toList.isSuffixOf s.toList

/-- `strings.TrimSuffix`: `s` without the trailing `suf`, or `s` itself. -/
def trimSuffix (s suf : String) : String :=
  if hasSuffix s suf then String.ofList (s.toList.take (s.length - suf.length)) else s

/-- `strings.Replace(s, old, new, 1)` on the characters: the first match of `old` replaced by
`repl`; an empty `old` matches at the start. -/
def replaceFirstChars (old repl : List Char) (s : List Char) : List Char :=
  if old <+: s then repl ++ s.drop old.length
  else
    match s with
    | [] => []
    | c :: rest => c :: replaceFirstChars old repl rest

/-- `strings.Replace(s, old, new, 1)`. -/
def replaceFirst (s old repl : String) : String :=
  String.ofList (replaceFirstChars old.toList repl.toList s.toList)

/-- `[]byte(s)` for a text of ASCII characters, one byte each. -/
def asciiBytes (s : String) : List UInt8 :=
  s.toList.map fun c => c.toNat.toUInt8

/-- `strings.Split` with a one-character separator: the pieces between the separators. -/
def split (s : String) (sep : Char) : List String :=
  (s.toList.splitOn sep).map String.ofList

/-- `strings.SplitN` with a one-character separator and a count: at most `n` pieces, the last
one holding the rest of `s`; no piece for `n = 0`. -/
def splitN (s : String) (sep : Char) : Nat → List String
  | 0 => []
  | 1 => [s]
  | n + 2 =>
    match s.toList.span (· ≠ sep) with
    | (before, _ :: after) => String.ofList before :: splitN (String.ofList after) sep (n + 1)
    | (_, []) => [s]

/-- `strconv.Quote` of a text whose only characters to escape are `"` and `\`. -/
def quote (s : String) : String :=
  "\"" ++ String.ofList (s.toList.flatMap fun c => if c = '"' ∨ c = '\\' then ['\\', c] else [c]) ++ "\""

/-- `fmt.Errorf(format, arg)` for a format with one `%q` verb, as its message. -/
def errorfQ (format arg : String) : String :=
  match format.toList.span (· ≠ '%') with
  | (before, '%' :: 'q' :: after) => String.ofList before ++ quote arg ++ String.ofList after
  | _ => format

theorem hasPrefix_iff {s pre : String} : hasPrefix s pre = true ↔ pre.toList <+: s.toList := by
  simp [hasPrefix, List.isPrefixOf_iff_prefix]

/-- A text that starts with `pre` and is not `pre` sorts above it. -/
theorem lt_of_hasPrefix {s pre : String} (start : hasPrefix s pre = true) (longer : s ≠ pre) : pre < s :=
  List.lt_of_prefix_of_ne (hasPrefix_iff.mp start) (fun same => longer (String.toList_inj.mp same.symm))

/-- Above `pre`, the texts that start with `pre` sort before those that do not. -/
theorem lt_of_hasPrefix_of_lt {pre a b : String} (above : pre < a) (other : hasPrefix a pre = false)
    (start : hasPrefix b pre = true) : b < a :=
  List.lt_of_prefix_of_lt above (fun more => by rw [← hasPrefix_iff, other] at more; cases more)
    (hasPrefix_iff.mp start)

theorem hasSuffix_iff {s suf : String} : hasSuffix s suf = true ↔ suf.toList <:+ s.toList := by
  simp [hasSuffix, List.isSuffixOf_iff_suffix]

theorem trimPrefix_of_prefix {s : String} {pre : List Char} (prefixed : pre <+: s.toList) :
    trimPrefix s (String.ofList pre) = String.ofList (s.toList.drop pre.length) := by
  rw [trimPrefix, if_pos (hasPrefix_iff.mpr (by rwa [String.toList_ofList])), String.length_ofList]

theorem trimSuffix_of_suffix {s : String} {suf : List Char} (suffixed : suf <:+ s.toList) :
    trimSuffix s (String.ofList suf) = String.ofList (s.toList.take (s.length - suf.length)) := by
  rw [trimSuffix, if_pos (hasSuffix_iff.mpr (by rwa [String.toList_ofList])), String.length_ofList]

theorem trimSuffix_of_not_suffix {s : String} {suf : List Char} (other : ¬suf <:+ s.toList) :
    trimSuffix s (String.ofList suf) = s := by
  rw [trimSuffix, if_neg (by rwa [hasSuffix_iff, String.toList_ofList])]

/-- `span` stops at the first `sep`. -/
theorem span_ne_of_split {l a b : List Char} {sep : Char} (split : l = a ++ sep :: b) (first : sep ∉ a) :
    l.span (· ≠ sep) = (a, sep :: b) := by
  have inside : ∀ c ∈ a, (!decide (c = sep)) = true := by
    intro c mem
    simpa using fun (same : c = sep) => first (same ▸ mem)
  subst split
  simp [List.span_eq_takeWhile_dropWhile, List.takeWhile_append_of_pos inside,
    List.dropWhile_append_of_pos inside]

/-- `strings.IndexByte` finds the first occurrence. -/
theorem idxOf?_split {a b : List Char} {sep : Char} (first : sep ∉ a) :
    (a ++ sep :: b).idxOf? sep = some a.length := by
  induction a with
  | nil => rw [List.nil_append, List.idxOf?_cons, if_pos (beq_self_eq_true sep)]; rfl
  | cons c a ih =>
    rw [List.mem_cons, not_or] at first
    rw [List.cons_append, List.idxOf?_cons, if_neg (by rw [beq_iff_eq]; exact fun same => first.1 same.symm),
      ih first.2]
    rfl

theorem span_ne_of_not_mem {l : List Char} {sep : Char} (absent : sep ∉ l) : l.span (· ≠ sep) = (l, []) := by
  have inside : ∀ c ∈ l, (!decide (c = sep)) = true := by
    intro c mem
    simpa using fun (same : c = sep) => absent (same ▸ mem)
  simp [List.span_eq_takeWhile_dropWhile, List.takeWhile_eq_self_iff.mpr inside,
    List.dropWhile_eq_nil_iff.mpr inside]

/-- A list holds no `sep`, or splits at its first one. -/
theorem split_at_first (l : List Char) (sep : Char) : sep ∉ l ∨ ∃ a b, sep ∉ a ∧ l = a ++ sep :: b := by
  induction l with
  | nil => exact .inl List.not_mem_nil
  | cons c l ih =>
    by_cases same : c = sep
    · exact .inr ⟨[], l, List.not_mem_nil, by rw [same]; rfl⟩
    · rcases ih with absent | ⟨a, b, first, rfl⟩
      · exact .inl (by simp [absent, Ne.symm same])
      · exact .inr ⟨c :: a, b, by simp [first, Ne.symm same], rfl⟩

theorem splitN_two_of_split {s : String} {a b : List Char} {sep : Char} (split : s.toList = a ++ sep :: b)
    (first : sep ∉ a) : splitN s sep 2 = [String.ofList a, String.ofList b] := by
  rw [splitN, span_ne_of_split split first]
  rfl

/-- `strings.Join` puts the same text after its first piece, whatever that piece is. -/
theorem exists_intercalate_cons (sep : String) (rest : List String) :
    ∃ after, ∀ x, sep.intercalate (x :: rest) = x ++ after := by
  cases rest with
  | nil => exact ⟨"", fun x => by rw [String.intercalate_singleton, String.append_empty]⟩
  | cons y rest =>
    exact ⟨sep ++ sep.intercalate (y :: rest), fun x => by rw [String.intercalate_cons_cons, String.append_assoc]⟩

/-- Pieces joined by a separator change only where one piece does. -/
theorem intercalate_split (sep first : String) (pre post : List String) :
    ∃ before after, ∀ x : String, sep.intercalate (first :: (pre ++ x :: post)) = before ++ (x ++ after) := by
  induction pre generalizing first with
  | nil =>
    obtain ⟨after, joined⟩ := exists_intercalate_cons sep post
    exact ⟨first ++ sep, after, fun x => by
      rw [List.nil_append, String.intercalate_cons_cons, joined, String.append_assoc]⟩
  | cons piece pre ih =>
    obtain ⟨before, after, joined⟩ := ih piece
    exact ⟨first ++ sep ++ before, after, fun x => by
      rw [List.cons_append, String.intercalate_cons_cons, joined]
      simp only [String.append_assoc]⟩

end Go.Strings
