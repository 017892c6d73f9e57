/-! # Names of source files

Slash-separated paths, and what they tell about a module: its name and the directory in which its settings are looked
for.
-/

namespace TypeInference.SourceFile

def parts (path : String) : List String := path.splitOn "/"

/-- Adds a part to the cleaned parts before it, latest first: `..` takes one part away where it can. -/
def addPart (rooted : Bool) (before : List String) (part : String) : List String :=
  if part = "" || part = "." then before
  else if part = ".." then
    match before with
    | [] => if rooted then [] else [".."]
    | ".." :: rest => ".." :: ".." :: rest
    | _ :: rest => rest
  else part :: before

/-- The shortest path to the same file: no empty part, no `.`, and `..` only at the start. -/
def clean (path : String) : String :=
  let rooted := path.startsWith "/"
  let kept := ((parts path).foldl (addPart rooted) []).reverse
  if rooted then "/" ++ "/".intercalate kept
  else if kept.isEmpty then "." else "/".intercalate kept

def base (path : String) : String :=
  if path = "" then "."
  else ((parts path).filter (· != "")).getLast?.getD "/"

def directory (path : String) : String :=
  let before := (parts path).dropLast
  clean ("/".intercalate before ++ if before.isEmpty then "" else "/")

def join (directory name : String) : String := clean (directory ++ "/" ++ name)

/-- The endings of module files; the first that fits counts. -/
def extensions : List String := [".alp.yaml", ".alp.yml", ".yaml", ".yml"]

def hasExtension (path : String) : Bool := extensions.any fun e => path.endsWith e

def withoutExtension (name : String) : String :=
  match extensions.find? fun e => name.endsWith e with
  | some e => String.ofList (name.toList.take (name.length - e.length))
  | none => name

def moduleName (path : String) : String := withoutExtension (base path)

/-- The directory of a module file; a path without the ending of one is a directory itself. -/
def moduleDirectory (path : String) : String :=
  if hasExtension path then directory path else path

end TypeInference.SourceFile
