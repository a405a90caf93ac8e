/-!
Paths of files, as text with slashes. `Path.folder` is the folder that a file lies in and
`Path.join` puts a path below another one; both keep the text as it is, apart from what they
remove or add at its end.
-/

namespace ParseKit

structure Path where
  text : String
deriving DecidableEq

namespace Path

def segments : List Char → List (List Char)
  | [] => [[]]
  | c :: rest =>
    if c = '/' then [] :: segments rest
    else
      match segments rest with
      | [] => [[c]]
      | segment :: more => (c :: segment) :: more

def isVoid (segment : List Char) : Bool := segment.isEmpty || segment == ['.']

def trimVoid (segments : List (List Char)) : List (List Char) :=
  (segments.reverse.dropWhile isVoid).reverse

/-- The head that a path keeps: its first slash, or its first segment if that is a dot. -/
def head (chars : List Char) : List Char :=
  if chars.head? = some '/' then ['/']
  else if (segments chars).head? = some ['.'] then ['.']
  else []

/-- The folder of a file: the path without its last segment that names something, and without
void segments before that. A path that names nothing lies in the empty path. -/
def folder (p : Path) : Path :=
  let chars := p.text.toList
  let head := head chars
  match (trimVoid (segments (chars.drop head.length))).reverse with
  | [] => ⟨""⟩
  | _ :: before =>
    ⟨.ofList (head ++ ((trimVoid before.reverse).intersperse ['/']).flatten)⟩

def isAbsolute (p : Path) : Bool := p.text.toList.head? == some '/'

/-- `q` below `p`. An absolute `q` stands for itself. -/
def join (p q : Path) : Path :=
  if q.isAbsolute then q
  else if p.text.isEmpty || p.text.toList.getLast? == some '/' then ⟨p.text ++ q.text⟩
  else ⟨p.text ++ "/" ++ q.text⟩

end Path

end ParseKit
