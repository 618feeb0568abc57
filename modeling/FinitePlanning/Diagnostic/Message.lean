import FinitePlanning.Collections

/-!
Texts that are read, and the spans of their bytes that diagnostics point to. A diagnostic is a title
with annotations on spans of the sources, which are shown in order. Names are read with the place
they come from.
-/

namespace FinitePlanning

/-- A text, with the path of the file it was read from. -/
structure Source where
  text : String
  path : Option String := none
deriving DecidableEq, Repr, Inhabited

/-- The bytes of a source from `start` up to but not including `stop`. -/
structure Span where
  source : Source
  start : Nat
  stop : Nat
deriving DecidableEq, Repr, Inhabited

/-- Number of bytes of a list of characters. -/
def byteLength (cs : List Char) : Nat :=
  total (cs.map Char.utf8Size)

/-- The characters that begin in `[start, stop)`, the first one given beginning at `offset`. -/
def charsWithin (start stop offset : Nat) : List Char → List Char
  | [] => []
  | c :: cs =>
    let rest := charsWithin start stop (offset + c.utf8Size) cs
    if start ≤ offset ∧ offset < stop then c :: rest else rest

namespace Span

/-- The span of the bytes from `first` to `last`, both included. -/
def ofBytes (source : Source) (first last : Nat) : Span :=
  ⟨source, first, last + 1⟩

/-- A whole text, as a source of its own. -/
def ofText (text : String) : Span :=
  ⟨⟨text, none⟩, 0, text.utf8ByteSize⟩

def length (s : Span) : Nat :=
  s.stop - s.start

def text (s : Span) : String :=
  String.ofList (charsWithin s.start s.stop 0 s.source.text.toList)

/-- The last byte of a span. -/
def lastByte (s : Span) : Span :=
  let last := max (s.stop - 1) s.start
  ⟨s.source, last, last + 1⟩

end Span

/-- What has a text and, if it was read, a place in a source. -/
class Located (α : Type) where
  span? : α → Option Span
  text : α → String

/-- The place of a value. A value that was not read is a source of its own. -/
def Located.span {α : Type} [Located α] (a : α) : Span :=
  (Located.span? a).getD (Span.ofText (Located.text a))

inductive Severity where
  | error
  | warning
deriving DecidableEq, Repr, Inhabited

/-- How an annotation is shown: as the fault itself, as context, or only as a visible place. -/
inductive Emphasis where
  | primary
  | context
  | visible
deriving DecidableEq, Repr

structure Annotation where
  emphasis : Emphasis
  span : Span
  label : Option String
deriving DecidableEq, Repr

/-- A diagnostic. Spans in `visible` are shown if their source has an annotation. -/
structure Message where
  severity : Severity
  title : String
  annotations : List Annotation := []
  visible : List Span := []
deriving DecidableEq, Repr, Inhabited

namespace Message

def error (title : String) : Message :=
  { severity := .error, title }

def warning (title : String) : Message :=
  { severity := .warning, title }

def toWarning (m : Message) : Message :=
  { m with severity := .warning }

def withTitle (m : Message) (title : String) : Message :=
  { m with title }

def annotate (m : Message) (emphasis : Emphasis) (span : Span) (label : String) : Message :=
  { m with annotations := m.annotations ++ [⟨emphasis, span, some label⟩] }

def reveal (m : Message) (span : Span) : Message :=
  { m with visible := m.visible ++ [span] }

/-- Adds the place of a value as context. -/
def info {α : Type} [Located α] (m : Message) (a : α) (label : String) : Message :=
  m.annotate .context (Located.span a) label

/-- An error about a span. A text of fewer than `limit` bytes is quoted in the title. -/
def invalidWithin (limit : Nat) (span : Span) (label : String) : Message :=
  let title := if span.length < limit then label ++ ": " ++ span.text else label
  (error title).annotate .primary span label

/-- An error about a span that was read. -/
def invalidSpan (span : Span) (label : String) : Message :=
  invalidWithin 60 span label

/-- An error about a value. -/
def invalid {α : Type} [Located α] (a : α) (label : String) : Message :=
  invalidWithin 40 (Located.span a) label

/-- Order of the sources: texts without a path first, then by path and text. -/
def sourceLe (a b : Source) : Bool :=
  match a.path, b.path with
  | none, none => decide (a.text ≤ b.text)
  | none, some _ => true
  | some _, none => false
  | some p, some q => if p = q then decide (a.text ≤ b.text) else decide (p ≤ q)

/-- The annotated sources, each once and in order. -/
def sources (m : Message) : List Source :=
  (m.annotations.map (·.span.source)).eraseDups.mergeSort sourceLe

/-- All annotations as they are shown: source by source, the merely visible spans of a source
after its annotations. -/
def layout (m : Message) : List Annotation :=
  m.sources.flatMap fun source =>
    m.annotations.filter (·.span.source = source) ++
      (m.visible.filter (·.source = source)).map (⟨.visible, ·, none⟩)

end Message

/-- What reading and elaborating yields. -/
abbrev Result := Except Message

namespace Result

/-- Replaces the title of an error. -/
def titled {α : Type} (r : Result α) (title : String) : Result α :=
  r.mapError (·.withTitle title)

/-- Adds the place of a value to an error. -/
def withInfo {α β : Type} [Located β] (r : Result α) (b : β) (label : String) : Result α :=
  r.mapError (·.info b label)

/-- Adds the place of a value to an error, and shows a further span. -/
def tagged {α β : Type} [Located β] (r : Result α) (b : β) (label : String)
    (visible : Option Span) : Result α :=
  (r.withInfo b label).mapError fun m => match visible with
    | some span => m.reveal span
    | none => m

end Result

/-- Whether a name is that of a variable. -/
def isVariable (name : String) : Bool :=
  name.toList.head? == some '?'

/-- A name, with its place in a source. -/
structure Symbol where
  name : String
  origin : Option Span := none
deriving DecidableEq, Repr, Inhabited

instance : Located Symbol := ⟨Symbol.origin, Symbol.name⟩

def Symbol.isVariable (s : Symbol) : Bool :=
  FinitePlanning.isVariable s.name
end FinitePlanning
