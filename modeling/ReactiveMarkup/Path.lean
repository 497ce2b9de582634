/-!
Module paths: segments between slashes, absolute when they start with one.
-/

namespace ReactiveMarkup.Path

/-- The parts between slashes. -/
def split : List Char → List (List Char)
  | [] => [[]]
  | c :: rest =>
    if c = '/' then [] :: split rest
    else match split rest with
      | first :: others => (c :: first) :: others
      | [] => [[c]]

/-- The parts with a slash between each two. -/
def join : List (List Char) → List Char
  | [] => []
  | [last] => last
  | first :: rest => first ++ '/' :: join rest

def isAbsolute (path : List Char) : Bool := path.head? == some '/'

/-- Resolves one part against the segments so far, innermost first. Going up from the
root stays at the root. -/
def step (absolute : Bool) (segments : List (List Char)) (part : List Char) : List (List Char) :=
  if part = [] ∨ part = ['.'] then segments
  else if part = ['.', '.'] then
    match segments with
    | last :: others => if last = ['.', '.'] then part :: segments else others
    | [] => if absolute then [] else [part]
  else part :: segments

/-- The segments of a path without empty, current and redundant parent parts. -/
def segments (path : List Char) : List (List Char) :=
  ((split path).foldl (step (isAbsolute path)) []).reverse

def normalizeChars (path : List Char) : List Char :=
  let joined := join (segments path)
  if isAbsolute path then '/' :: joined
  else if joined.isEmpty then ['.']
  else joined

/-- A path in its shortest form. The empty path is the current directory. -/
def normalize (path : String) : String := .ofList (normalizeChars path.toList)

/-- A path seen from a directory. -/
def resolve (directory path : String) : String :=
  if isAbsolute path.toList then normalize path else normalize (directory ++ "/" ++ path)

/-- The directory of a path. -/
def parent (path : String) : String :=
  match (normalizeChars path.toList).reverse.dropWhile (· != '/') with
  | [] => "."
  | ['/'] => "/"
  | _ :: directory => .ofList directory.reverse

/-- Drops the segments that both lists start with. -/
def dropCommon : List (List Char) → List (List Char) → List (List Char) × List (List Char)
  | a :: as, b :: bs => if a = b then dropCommon as bs else (a :: as, b :: bs)
  | as, bs => (as, bs)

/-- The path that leads from a directory to a file. It starts with a point. -/
def relative (directory file : String) : String :=
  let parts (path : String) := (split (normalizeChars path.toList)).filter fun part => part != [] && part != ['.']
  let (up, down) := dropCommon (parts directory) (parts file)
  let path := join (up.map (fun _ => ['.', '.']) ++ down)
  .ofList (if path.head? = some '.' then path else '.' :: '/' :: path)

end ReactiveMarkup.Path
