/-!
# Quoted text

String tokens stand between double quotes.  `encode` writes one: quotes, backslashes, newlines
and tabs are escaped.  `decode` reads one leniently: a backslash before any other character, or
before the closing quote, stands for itself.

Main statement:

* `Quoted.decode_encode` : what `encode` writes, `decode` reads back.
-/

namespace SignalLang

namespace Quoted

/-- The escaped form of one character. -/
def escape : Char → List Char
  | '"' => ['\\', '"']
  | '\\' => ['\\', '\\']
  | '\n' => ['\\', 'n']
  | '\t' => ['\\', 't']
  | c => [c]

/-- Resolves the escapes in the text between the quotes.  Unknown escapes are kept as written. -/
def unescape : List Char → List Char
  | [] => []
  | ['\\'] => ['\\']
  | '\\' :: '"' :: rest => '"' :: unescape rest
  | '\\' :: '\\' :: rest => '\\' :: unescape rest
  | '\\' :: 'n' :: rest => '\n' :: unescape rest
  | '\\' :: 't' :: rest => '\t' :: unescape rest
  | '\\' :: c :: rest => '\\' :: c :: unescape rest
  | c :: rest => c :: unescape rest

/-- What stands between a leading and a trailing quote, which are two distinct characters. -/
def inner? : List Char → Option (List Char)
  | '"' :: rest => if rest.getLast? = some '"' then some rest.dropLast else none
  | _ => none

/-- The text that a string token stands for; `none` if it is not enclosed in quotes. -/
def decode (token : String) : Option String :=
  (inner? token.toList).map fun cs => String.ofList (unescape cs)

/-- The string token that stands for a text. -/
def encode (text : String) : String :=
  String.ofList ('"' :: text.toList.flatMap escape ++ ['"'])

theorem unescape_escape_append (c : Char) (rest : List Char) :
    unescape (escape c ++ rest) = c :: unescape rest := by
  by_cases h₁ : c = '"'
  · subst h₁; rfl
  by_cases h₂ : c = '\\'
  · subst h₂; rfl
  by_cases h₃ : c = '\n'
  · subst h₃; rfl
  by_cases h₄ : c = '\t'
  · subst h₄; rfl
  have he : escape c = [c] := by
    unfold escape
    split <;> simp_all
  rw [he, List.singleton_append, unescape] <;> simp [h₂]

theorem unescape_flatMap_escape (cs : List Char) : unescape (cs.flatMap escape) = cs := by
  induction cs with
  | nil => rfl
  | cons c cs ih => rw [List.flatMap_cons, unescape_escape_append, ih]

theorem inner?_quoted (cs : List Char) : inner? ('"' :: cs ++ ['"']) = some cs := by
  simp [inner?]

/-- What `encode` writes, `decode` reads back. -/
theorem decode_encode (text : String) : decode (encode text) = some text := by
  simp [decode, encode, inner?, unescape_flatMap_escape]

end Quoted

end SignalLang
