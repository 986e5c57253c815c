import ClientBuild.Json.Token

/-!
# Reading JSON

A reader keeps the arrays and objects that are still open, innermost first, and what may come
next; every token moves it on or is refused.
-/

namespace ClientBuild.Json

/-- An array or object still open, with its items or members so far, last one first. -/
inductive Frame where
  | items (done : List Raw)
  | members (done : List (Option String × Raw)) (key : Option String)

/-- What may come next. -/
inductive Expected where
  /-- A value. -/
  | value
  /-- A value, or the end of the array just opened. -/
  | valueOrClose
  /-- A comma, or the end of the innermost array or object. -/
  | commaOrClose
  /-- The key of a member, or the end of the object just opened. -/
  | keyOrClose (done : List (Option String × Raw))
  /-- The key of a member. -/
  | key (done : List (Option String × Raw))
  /-- The colon behind a key. -/
  | colon (done : List (Option String × Raw)) (key : Option String)
  /-- Nothing: the value is complete. -/
  | nothing (v : Raw)

/-- The state of a reader. -/
structure ReaderState where
  frames : List Frame
  expected : Expected

namespace ReaderState

/-- A reader at the start of a text. -/
def start : ReaderState := ⟨[], .value⟩

/-- A value is complete: it joins the innermost open array or object. -/
def complete (v : Raw) : List Frame → ReaderState
  | [] => ⟨[], .nothing v⟩
  | .items done :: fs => ⟨.items (v :: done) :: fs, .commaOrClose⟩
  | .members done key :: fs => ⟨.members ((key, v) :: done) none :: fs, .commaOrClose⟩

/-- A token that starts a value. -/
def beginValue? (frames : List Frame) : Token → Option ReaderState
  | .value v => some (complete v frames)
  | .openArray => some ⟨.items [] :: frames, .valueOrClose⟩
  | .openObject => some ⟨frames, .keyOrClose []⟩
  | _ => none

/-- The reader behind a token, or `none` if the token may not come here. -/
def step (r : ReaderState) (t : Token) : Option ReaderState :=
  match r.expected, t, r.frames with
  | .value, t, fs => beginValue? fs t
  | .valueOrClose, .closeArray, .items done :: fs => some (complete (.array done.reverse) fs)
  | .valueOrClose, t, fs => beginValue? fs t
  | .commaOrClose, .comma, .items done :: fs => some ⟨.items done :: fs, .value⟩
  | .commaOrClose, .comma, .members done _ :: fs => some ⟨fs, .key done⟩
  | .commaOrClose, .closeArray, .items done :: fs => some (complete (.array done.reverse) fs)
  | .commaOrClose, .closeObject, .members done _ :: fs =>
    some (complete (.object done.reverse) fs)
  | .keyOrClose done, .closeObject, fs => some (complete (.object done.reverse) fs)
  | .keyOrClose done, .value (.string k), fs => some ⟨fs, .colon done k⟩
  | .key done, .value (.string k), fs => some ⟨fs, .colon done k⟩
  | .colon done k, .colon, fs => some ⟨.members done k :: fs, .value⟩
  | _, _, _ => none

/-- The reader behind a list of tokens. -/
def run (r : ReaderState) : List Token → Option ReaderState
  | [] => some r
  | t :: ts => (r.step t).bind fun r' => r'.run ts

end ReaderState

/-- What a list of tokens spells. -/
def Raw.ofTokens? (ts : List Token) : Option Raw :=
  match ReaderState.start.run ts with
  | some ⟨[], .nothing v⟩ => some v
  | _ => none

/-- Read a text that follows the grammar of JSON. -/
def Raw.parse? (s : List Char) : Option Raw := (tokens? s).bind Raw.ofTokens?

/-- Read the parts of a text that a shape keeps.  An object may hold a key more than once. -/
def readAs? (shape : Shape) (s : List Char) : Option Json := (Raw.parse? s).bind (·.fit? shape)

/-- Read a text as a value; of equal keys the last member wins. -/
def parse? (s : List Char) : Option Json := (readAs? .whole s).map settled

end ClientBuild.Json
