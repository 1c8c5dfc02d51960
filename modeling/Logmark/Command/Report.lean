import Logmark.Command.Basic
import Logmark.Json.Printing
import Logmark.Removal

/-!
What the commands print.
-/
namespace Logmark.Report

/-- The name and version of the program. -/
def version : List Text := ["ezlog 0.1.0".toList]

def help : List Text :=
  ["Insert and remove tagged console.log statements".toList,
    "".toList,
    "  insert FILE [-s RANGE | -l POSITION -e EXPR] [-o PATH] [--label TEXT] [-t TAG]".toList,
    "              [-n | --json]".toList,
    "  remove FILE [-t TAG] [-n | --json]".toList,
    "  locate -o PATH -l POSITION".toList,
    "  tag [NEW_TAG | --reset]".toList,
    "".toList,
    "All commands take --config PATH and -v. A position is LINE[:COL], a range is".toList,
    "POSITION[-POSITION]; both count from one.".toList]

def escape (code : Text) (s : Text) : Text := '\x1b' :: '[' :: code ++ 'm' :: s

/-- `s` between two terminal codes, the first to switch a style on and the second to end it. -/
def styled (on off : String) (s : Text) : Text := escape on.toList s ++ escape off.toList []

def green (s : Text) : Text := styled "32" "39" s

def blue (s : Text) : Text := styled "34" "39" s

def dimmed (s : Text) : Text := styled "2" "0" s

/-- `s` with spaces before it up to a length of `n`. -/
def padLeft (n : Nat) (s : Text) : Text := List.replicate (n - s.length) ' ' ++ s

/-- The line that starts every preview. -/
def previewBanner : Text := blue "(DRY-RUN MODE - no changes will be made)".toList

def entryJson (e : Entry) : Text :=
  Json.printObject
    [("text".toList, Json.printText e.text),
      ("insertionLine".toList, Json.printCount e.insertionLine)]

def removalJson (r : Removal) : Text :=
  Json.printObject
    [("text".toList, Json.printText r.text), ("changed".toList, Json.printBool r.changed),
      ("removed".toList, Json.printCount r.removed)]

/-- The number of the line that an entry becomes, counted from one. -/
def entryLine (e : Entry) : Text := Text.numeral (nextCount e.insertionLine)

def done (s : Text) : Text := green "Done:".toList ++ ' ' :: s

def preview (s : Text) : Text := blue "[DRY-RUN]".toList ++ ' ' :: s

def inserted (selected : Text) (e : Entry) : List Text :=
  [done ("Inserted log for \"".toList ++ selected ++ "\" at line ".toList ++ entryLine e)]

def insertionPreview (path : Text) (e : Entry) : List Text :=
  [preview ("Insert before line ".toList ++ entryLine e ++ " of ".toList ++ path ++ [':']),
    "  ".toList ++ e.text]

def nothingToRemove : List Text := ["No matching console.log statements found".toList]

def removed (count : Nat) : List Text :=
  [done ("Deleted ".toList ++ Text.numeral count ++ " console.log statement(s)".toList)]

/-- A line that would go, with its number counted from one. -/
def removalLine (l : Nat) (line : Text) : Text :=
  "  ".toList ++ padLeft 5 (Text.numeral (l + 1)) ++ ": ".toList ++ dimmed (Text.trim line)

def removalPreview (path : Text) (count : Nat) (lines : List (Nat × Text)) : List Text :=
  preview ("Would delete ".toList ++ Text.numeral count ++
    " console.log statement(s) from ".toList ++ path ++ [':']) ::
      lines.map fun (l, line) => removalLine l line

def tagSet (tag : Tag) : List Text := [done ("Identifier set to ".toList ++ tag.name)]

def tagReset (tag : Tag) : List Text := [done ("Identifier reset to ".toList ++ tag.name)]

end Logmark.Report
