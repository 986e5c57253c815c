/-!
# Scanning stylesheets

Comments and strings of a stylesheet are taken as a whole: neither braces nor semicolons count in
them.  In a string a backslash escapes one character.  A comment or string that is not closed
reaches to the end of the text.
-/

namespace ClientBuild.Style

/-- Put a character in front of the first part of a pair. -/
def pushFront (c : Char) (p : List Char × List Char) : List Char × List Char := (c :: p.1, p.2)

/-- Split behind the end of a comment whose beginning has been read. -/
def takeComment : List Char → List Char × List Char
  | [] => ([], [])
  | '*' :: '/' :: s => (['*', '/'], s)
  | c :: s => pushFront c (takeComment s)

/-- Split behind the end of a string whose opening quote `q` has been read. -/
def takeString (q : Char) : List Char → List Char × List Char
  | [] => ([], [])
  | '\\' :: c :: s => pushFront '\\' (pushFront c (takeString q s))
  | c :: s => if c = q then ([c], s) else pushFront c (takeString q s)

/-- A quote that a string of a stylesheet starts with. -/
def isSheetQuote (c : Char) : Bool := c == '"' || c == '\''

/-- Where a scan is. -/
inductive Place where
  | code
  /-- In a string that `quote` closes; `escaped` behind a backslash. -/
  | string (quote : Char) (escaped : Bool)
  /-- In a comment; `star` behind a star that may begin its end. -/
  | comment (star : Bool)
deriving DecidableEq, Repr

/-- The place in a string or comment behind one more of its characters. -/
def Place.next : Place → Char → Place
  | .code, _ => .code
  | .string q escaped, c =>
    if escaped then .string q false
    else if c = '\\' then .string q true
    else if c = q then .code
    else .string q false
  | .comment star, c => if c = '/' ∧ star then .code else .comment (c = '*')

/-- Split around the brace that closes a block, `depth` further braces being open. -/
def takeBlock? : Place → (depth : Nat) → List Char → Option (List Char × List Char)
  | _, _, [] => none
  | .code, d, '/' :: '*' :: s =>
    (takeBlock? (.comment false) d s).map fun p => pushFront '/' (pushFront '*' p)
  | .code, d, c :: s =>
    if isSheetQuote c then (takeBlock? (.string c false) d s).map (pushFront c)
    else if c = '{' then (takeBlock? .code (d + 1) s).map (pushFront c)
    else if c = '}' then
      match d with
      | 0 => some ([], s)
      | d + 1 => (takeBlock? .code d s).map (pushFront c)
    else (takeBlock? .code d s).map (pushFront c)
  | p, d, c :: s => (takeBlock? (p.next c) d s).map (pushFront c)

/-- Split around the parenthesis that closes an argument, `depth` further ones being open. -/
def takeArgument? : (depth : Nat) → List Char → Option (List Char × List Char)
  | _, [] => none
  | d, '(' :: s => (takeArgument? (d + 1) s).map (pushFront '(')
  | 0, ')' :: s => some ([], s)
  | d + 1, ')' :: s => (takeArgument? d s).map (pushFront ')')
  | d, c :: s => (takeArgument? d s).map (pushFront c)

theorem takeComment_append (s : List Char) : (takeComment s).1 ++ (takeComment s).2 = s := by
  fun_induction takeComment s with
  | case1 => rfl
  | case2 s => rfl
  | case3 c s _ ih => simpa [pushFront] using ih

theorem takeString_append (q : Char) (s : List Char) :
    (takeString q s).1 ++ (takeString q s).2 = s := by
  fun_induction takeString q s with
  | case1 => rfl
  | case2 c s ih => simpa [pushFront] using ih
  | case3 => simp
  | case4 c s _ h ih => simpa [pushFront] using ih

theorem length_takeComment_snd (s : List Char) : (takeComment s).2.length ≤ s.length := by
  have h := congrArg List.length (takeComment_append s)
  simp only [List.length_append] at h
  omega

theorem length_takeString_snd (q : Char) (s : List Char) :
    (takeString q s).2.length ≤ s.length := by
  have h := congrArg List.length (takeString_append q s)
  simp only [List.length_append] at h
  omega

/-- A block is its body, the closing brace and the rest. -/
theorem eq_of_takeBlock? {p : Place} {d : Nat} {s body rest : List Char}
    (h : takeBlock? p d s = some (body, rest)) : s = body ++ '}' :: rest := by
  fun_induction takeBlock? p d s generalizing body rest <;>
    simp_all [pushFront] <;> grind

theorem length_takeBlock? {p : Place} {d : Nat} {s body rest : List Char}
    (h : takeBlock? p d s = some (body, rest)) : body.length + rest.length + 1 = s.length := by
  simp [eq_of_takeBlock? h]
  omega

end ClientBuild.Style
