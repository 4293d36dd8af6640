import Mathlib
import OpenWebUI.Knowledge.Pipeline
import OpenWebUI.Knowledge.Store

/-! # The knowledge shell

The commands of `backend/open_webui/tools/knowledge_fs.py`, pipelines of them and `kb_exec`. A
handler answers with a text, or with the text of an exception.
-/

namespace OpenWebUI.Knowledge

open Py Shell

/-! ## Texts -/

/-- `s.split('\n')`. -/
def splitLines (s : Text) : List Text := s.splitOn '\n'

/-- `'\n'.join(lines)`. -/
def joinLines (lines : List Text) : Text := ['\n'].intercalate lines

def rstrip (s : Text) : Text := s.rdropWhile isSpace

def natText (n : ℕ) : Text := n.repr.toList

/-- A comma after every third digit, the last digit first. -/
def commas : Text → Text
  | a :: b :: c :: d :: rest => a :: b :: c :: ',' :: commas (d :: rest)
  | rest => rest

/-- `f'{n:,}'`. -/
def grouped (n : ℕ) : Text := (commas (natText n).reverse).reverse

/-- `sub in s`. -/
def contains (sub s : Text) : Bool := s.tails.any sub.isPrefixOf

/-- The decimal zeros of Unicode 14; each begins a block of ten digits. -/
def decimalZeros : List ℕ := [
    48, 1632, 1776, 1984, 2406, 2534, 2662, 2790, 2918, 3046, 3174, 3302, 3430, 3558,
      3664, 3792, 3872,
    4160, 4240, 6112, 6160, 6470, 6608, 6784, 6800, 6992, 7088, 7232, 7248, 42528,
      43216, 43264, 43472,
    43504, 43600, 44016, 65296, 66720, 68912, 69734, 69872, 69942, 70096, 70384,
      70736, 70864, 71248,
    71360, 71472, 71904, 72016, 72784, 73040, 73120, 92768, 92864, 93008, 120782, 120792,
      120802, 120812,
    120822, 123200, 123632, 125264, 130032]

/-- The value of a digit `\d` matches. -/
def decimal? (c : Char) : Option ℕ :=
  (decimalZeros.find? fun first => first ≤ c.toNat && c.toNat < first + 10).map (c.toNat - ·)

def isDecimal (c : Char) : Bool := (decimal? c).isSome

/-- `int(digits)`; Python refuses more than 4300 digits. -/
def intOfDigits (digits : Text) : Except Text ℕ :=
  if digits.length > 4300 then
    .error ("Exceeds the limit (4300 digits) for integer string conversion: value has ".toList ++
      natText digits.length ++
      " digits; use sys.set_int_max_str_digits() to increase the limit".toList)
  else .ok (digits.foldl (fun n c => 10 * n + (decimal? c).getD 0) 0)

/-- `$` at the end of a text, or before the line feed that ends it. -/
def atEnd (s : Text) : Bool := s = [] || s = ['\n']

/-- The digits of a token that `^-\d+$` matches. -/
def numericFlag? : Text → Option Text
  | '-' :: rest =>
    if rest.takeWhile isDecimal ≠ [] ∧ atEnd (rest.dropWhile isDecimal) then
      some (rest.takeWhile isDecimal) else none
  | _ => none

/-- What is left after a character that may be there. -/
def optional (c : Char) (s : Text) : Text := if s.head? = some c then s.tail else s

/-- The groups of `^(\d+),(\d+)p?$`, and with quotes of `^'?(\d+),(\d+)p?'?$`. -/
def range? (quotes : Bool) (arg : Text) : Option (Text × Text) :=
  let arg := if quotes then optional '\'' arg else arg
  match arg.dropWhile isDecimal with
  | ',' :: rest =>
    let after := optional 'p' (rest.dropWhile isDecimal)
    let after := if quotes then optional '\'' after else after
    if arg.takeWhile isDecimal ≠ [] ∧ rest.takeWhile isDecimal ≠ [] ∧ atEnd after then
      some (arg.takeWhile isDecimal, rest.takeWhile isDecimal)
    else none
  | _ => none

/-! ## Dates -/

/-- Year, month and day, a number of days after 1970-01-01. -/
def civil (days : ℤ) : ℤ × ℤ × ℤ :=
  let z := days + 719468
  let era := z / 146097
  let doe := z % 146097
  let yoe := (doe - doe / 1460 + doe / 36524 - doe / 146096) / 365
  let doy := doe - (365 * yoe + yoe / 4 - yoe / 100)
  let mp := (5 * doy + 2) / 153
  let month := if mp < 10 then mp + 3 else mp - 9
  (yoe + era * 400 + (if month ≤ 2 then 1 else 0), month, doy - (153 * mp + 2) / 5 + 1)

example : civil 19782 = (2024, 2, 29) := by decide

/-- A number with at least two digits. -/
def twoDigits (n : ℤ) : Text := if n < 10 then '0' :: natText n.toNat else natText n.toNat

/-- `strftime('%Y-%m-%d')` of a time in seconds. -/
def dateText (t : ℤ) : Text :=
  let (year, month, day) := civil (t / 86400)
  natText year.toNat ++ '-' :: twoDigits month ++ '-' :: twoDigits day

/-- `strftime('%Y-%m-%d %H:%M:%S UTC')` of a time in seconds. -/
def dateTimeText (t : ℤ) : Text :=
  let second := t % 86400
  dateText t ++ ' ' :: twoDigits (second / 3600) ++ ':' :: twoDigits (second / 60 % 60) ++ ':' ::
    twoDigits (second % 60) ++
    " UTC".toList

/-! ## Patterns -/

/-- `re.search(r'\[.+\]', pattern)`. -/
def hasBrackets : Text → Bool
  | '[' :: c :: rest => c ≠ '\n' && (rest.takeWhile (· ≠ '\n')).contains ']' ||
    hasBrackets (c :: rest)
  | _ :: rest => hasBrackets rest
  | [] => false

/-- `is_regex_pattern(pattern)`. -/
def isRegexPattern (pattern : Text) : Bool :=
  ["|", ".*", ".+", ".?", "\\d", "\\w", "\\s"].any (fun sign => contains sign.toList pattern) ||
    hasBrackets pattern

/-- `pattern.replace(r'\|', '|')`. -/
def unescapePipes : Text → Text
  | '\\' :: '|' :: rest => '|' :: unescapePipes rest
  | c :: rest => c :: unescapePipes rest
  | [] => []

/-- `normalize_regex(pattern)`. -/
def normalizeRegex (pattern : Text) : Text := unescapePipes (unescapePipes pattern)

/-- `build_matcher(pattern, case_insensitive, use_regex)`, without its time limit. -/
def buildMatcher (py : Python) (pattern : Text) (caseInsensitive useRegex : Bool) :
    Except Text (Text → Bool) :=
  if pattern.length > 4096 then
    .error "Search patterns over 4096 characters are not supported".toList
  else if useRegex || isRegexPattern pattern then
    match py.compile (normalizeRegex pattern) (!caseInsensitive) with
    | .ok search => .ok search
    | .error e => .error ("Invalid or unsupported regex (RE2 syntax): ".toList ++ e)
  else if caseInsensitive then .ok fun line => contains (py.lower pattern) (py.lower line)
  else .ok fun line => contains pattern line

/-- An item of a glob. -/
inductive GlobItem where
  | star
  | any
  | set (negated : Bool) (ranges : List (Char × Char))
  | lit (c : Char)
deriving DecidableEq

/-- The ranges between the brackets of a set. -/
def globRanges : Text → List (Char × Char)
  | a :: '-' :: b :: rest => (a, b) :: globRanges rest
  | a :: rest => (a, a) :: globRanges rest
  | [] => []

/-- What stands between brackets, and what follows; a bracket right at the beginning is an
element. -/
def globBody (s : Text) : Option (Bool × Text × Text) :=
  let negated := s.head? = some '!'
  let s := if negated then s.tail else s
  let body := s.take 1 ++ s.tail.takeWhile (· ≠ ']')
  match s.tail.dropWhile (· ≠ ']') with
  | ']' :: rest => some (negated, body, rest)
  | _ => none

/-- The items of a glob, read with a bound on its length. -/
def globItems : ℕ → Text → List GlobItem
  | 0, _ => []
  | _ + 1, [] => []
  | n + 1, '*' :: rest => .star :: globItems n rest
  | n + 1, '?' :: rest => .any :: globItems n rest
  | n + 1, '[' :: rest =>
    match globBody rest with
    | some (negated, body, after) => .set negated (globRanges body) :: globItems n after
    | none => .lit '[' :: globItems n rest
  | n + 1, c :: rest => .lit c :: globItems n rest

def GlobItem.accepts (c : Char) : GlobItem → Bool
  | star => true
  | any => true
  | set negated ranges => negated != ranges.any fun r => r.1 ≤ c && c ≤ r.2
  | lit d => c = d

def globMatches : List GlobItem → Text → Bool
  | [], s => s = []
  | .star :: items, s => s.tails.any (globMatches items)
  | item :: items, s =>
    match s with
    | [] => false
    | c :: s => item.accepts c && globMatches items s

/-- `fnmatch.fnmatch(name, pattern)` where case matters. -/
def fnmatch (name pattern : Text) : Bool := globMatches (globItems pattern.length pattern) name

example : fnmatch "notes-7.md".toList "n*[!a-f]-[0-9].m?".toList = true := by decide

/-! ## Arguments -/

/-- `_extract_flags(tokens)`. -/
def extractFlags (tokens : List Text) : List Char × List Text :=
  tokens.foldl (fun p token =>
    if token.head? = some '-' ∧ token.length > 1 ∧ ¬ isDigit token.tail then
      (p.1 ++ token.tail, p.2)
    else (p.1, p.2 ++ [token])) ([], [])

/-- `_extract_numeric_flag(tokens)`. -/
def extractNumericFlag (tokens : List Text) : Except Text (Option ℕ × List Text) :=
  tokens.foldlM (fun p token =>
    match p.1, numericFlag? token with
    | none, some digits => (intOfDigits digits).map fun n => (some n, p.2)
    | _, _ => .ok (p.1, p.2 ++ [token])) (none, [])

/-! ## Listings -/

/-- `_sort_files(files, flags)`. -/
def sortFiles (files : List FileInfo) (flags : List Char) : List FileInfo :=
  let sorted :=
    if 't' ∈ flags then files.insertionSort fun f g => g.updatedAt.getD 0 ≤ f.updatedAt.getD 0
    else if 'S' ∈ flags then files.insertionSort fun f g => g.size.getD 0 ≤ f.size.getD 0
    else files.insertionSort fun f g =>
      (f.path.filter (· ≠ [])).getD f.filename.toList ≤
        (g.path.filter (· ≠ [])).getD g.filename.toList
  if 'r' ∈ flags then sorted.reverse else sorted

/-- `_fmt_size(f)`. -/
def fmtSize (f : FileInfo) : Text :=
  match f.size.filter (· ≠ 0) with
  | some n => grouped n ++ " bytes".toList
  | none => []

/-- `_fmt_date(f)`. -/
def fmtDate (f : FileInfo) : Text :=
  match f.updatedAt.filter (· ≠ 0) with
  | some t => dateText t
  | none => []

/-- `not f.get('knowledge_id')`. -/
def FileInfo.isDirect (f : FileInfo) : Bool := f.knowledge.all (·.1 = "")

/-- A file as `ls` lists it. -/
def listed (name : Text) (f : FileInfo) : Text :=
  "  ".toList ++ f.id.toList ++ "  ".toList ++ name ++ "  ".toList ++ fmtSize f ++
    "  ".toList ++ fmtDate f

/-- The head of a knowledge base. -/
def header (id : String) (base : KnowledgeBase) : Text :=
  "Knowledge Base: ".toList ++ base.name.toList ++ " (".toList ++ id.toList ++ ")".toList ++
    if base.description ≠ "" then "\n  ".toList ++ base.description.toList else []

/-- What an exception says where a recursion does not end. -/
def recursionError : Text := "maximum recursion depth exceeded".toList

section
variable (py : Python) (s : Store) (user : Caller) (attached : List Attached)

/-- The files attached by themselves. -/
def directFiles : List FileInfo :=
  if attached ≠ [] then (accessibleFiles py s user attached none).filter FileInfo.isDirect else []

/-- What `ls` says about one knowledge base. -/
def lsBase (flat : Bool) (dirPath : Option Text) (flags : List Char) (kb : String × KnowledgeBase) :
    Except Text (List Text) :=
  if flat then
    match buildDirectoryTree s kb.1 with
    | none => .error recursionError
    | some tree => .ok
      ([header kb.1 kb.2] ++ ((sortFiles tree.files flags).map fun f =>
        listed (f.path.getD []) f) ++ [[]])
  else
    let target := dirPath.map fun path => resolveDirPath s path kb.1
    if target = some none then
      .ok [header kb.1 kb.2, "  Directory not found: ".toList ++ dirPath.getD [], []]
    else
      let dirId := target.join
      let pathLine := dirPath.toList.map fun path => "  Path: ".toList ++ path ++ "/".toList
      let subdirs := getDirectories s kb.1 dirId
      let dirFiles := (accessibleFiles py s user attached (some kb.1)).filter
        (·.directoryId = dirId)
      .ok ([header kb.1 kb.2] ++ pathLine ++
        (subdirs.map fun d => "  📁 ".toList ++ d.2.name.toList ++ "/".toList) ++
        ((sortFiles dirFiles flags).map fun f => listed f.filename.toList f) ++
        (if subdirs = [] ∧ dirFiles = [] then ["  (empty)".toList] else []) ++ [[]])

/-- `_kb_ls(args, flags, user, model_knowledge)`. -/
def kbLs (args : List Text) (flags : List Char) : Except Text Text := do
  let pathArg := args.head?.filter (· ≠ [])
  let kbs := accessibleKbIds py s user attached none
  let direct := directFiles py s user attached
  let target := pathArg.filter fun path => kbs.any (·.1.toList = path)
  let dirPath := if target.isSome then none else (pathArg.map stripSlashes).filter (· ≠ [])
  let kbs := match target with
    | some path => kbs.filter (·.1.toList = path)
    | none => kbs
  if kbs = [] ∧ direct = [] then return "No knowledge bases found.".toList
  let lines ← kbs.mapM (lsBase py s user attached ('a' ∈ flags) dirPath flags)
  let attachedLines :=
    if direct ≠ [] ∧ target = none ∧ dirPath = none then
      ["Attached Files:".toList] ++
        ((sortFiles direct flags).map fun f => listed f.filename.toList f) ++ [[]]
    else []
  return rstrip (joinLines (lines.flatten ++ attachedLines))

/-! ## Reading files -/

/-- What is done with the file of a reference, or why there is none. -/
def withFile (ref : Text) (f : Resolved → Except Text Text) : Except Text Text :=
  match resolveFile py s user attached ref with
  | .missing => .ok ("File not found: ".toList ++ ref)
  | .error text => .ok text
  | .file r => f r

/-- `f'{i}: {line}'`. -/
def numbered (i : ℕ) (line : Text) : Text := natText i ++ ": ".toList ++ line

/-- `_kb_cat(args, flags, user, model_knowledge)`. -/
def kbCat (args : List Text) (flags : List Char) : Except Text Text :=
  match args with
  | [] => .ok "Usage: cat [-n] <file_id or filename>".toList
  | ref :: _ => withFile py s user attached ref fun r =>
    if 'n' ∈ flags then .ok (joinLines
      ((splitLines r.content).zipIdx.map fun l => numbered (l.2 + 1) l.1)) else .ok r.content

/-- `lines[-n:]`. -/
def lastLines (n : ℕ) (lines : List Text) : List Text :=
    if n = 0 then lines else lines.drop (lines.length - n)

/-- Some of the lines of a file, and a notice when it has more. -/
def someOf (choose : ℕ → List Text → List Text) (showing : String) (n : ℕ) (r : Resolved) : Text :=
  let lines := splitLines r.content
  joinLines (choose n lines) ++
    if lines.length > n then
      showing.toList ++ natText n ++ " of ".toList ++ natText lines.length ++ " lines]".toList
    else []

/-- `_kb_head` and `_kb_tail`. -/
def kbSome (name : String) (choose : ℕ → List Text → List Text) (showing : String)
    (args : List Text)
    (piped : Option Text) : Except Text Text := do
  let (n, args) ← extractNumericFlag args
  match piped, args with
  | some text, _ => return joinLines (choose (n.getD 10) (splitLines text))
  | none, [] => return "Usage: ".toList ++ name.toList ++ " [-N] <file>".toList
  | none, ref :: _ =>
      withFile py s user attached ref fun r => .ok (someOf choose showing (n.getD 10) r)

def kbHead (args : List Text) (piped : Option Text) : Except Text Text :=
  kbSome py s user attached "head" List.take "\n[showing " args piped

def kbTail (args : List Text) (piped : Option Text) : Except Text Text :=
  kbSome py s user attached "tail" lastLines "\n[showing last " args piped

/-- Lines, words and characters. -/
def counts (text : Text) : ℕ × ℕ × ℕ :=
  (text.count '\n' + (if text ≠ [] ∧ text.getLast? ≠ some '\n' then 1 else 0),
    (fields text).length, text.length)

/-- `_kb_wc(args, flags, user, model_knowledge, piped_input)`. -/
def kbWc (args : List Text) (flags : List Char) (piped : Option Text) : Except Text Text :=
  let shown (c : ℕ × ℕ × ℕ) : Text :=
    "  ".toList ++ natText c.1 ++ "  ".toList ++ natText c.2.1 ++ "  ".toList ++ natText c.2.2
  match piped with
  | some text => .ok (if 'l' ∈ flags then natText (counts text).1 else shown (counts text))
  | none =>
    match args with
    | [] => .ok "Usage: wc [-l] <file>".toList
    | ref :: _ => withFile py s user attached ref fun r =>
      .ok ((if 'l' ∈ flags then "  ".toList ++ natText (counts r.content).1
        else shown (counts r.content)) ++
        "  ".toList ++ r.filename.toList)

/-- `_kb_stat(args, flags, user, model_knowledge)`. -/
def kbStat (args : List Text) : Except Text Text :=
  match args with
  | [] => .ok "Usage: stat <file>".toList
  | ref :: _ => withFile py s user attached ref fun r =>
    let (lines, words, chars) := counts r.content
    .ok (joinLines (
      ["  File: ".toList ++ r.filename.toList,
       "    ID: ".toList ++ r.id.toList,
       "  Size: ".toList ++ grouped (r.size.getD chars) ++ " bytes".toList,
       "  Type: ".toList ++ (r.contentType.getD "unknown").toList,
       " Lines: ".toList ++ grouped lines,
       " Words: ".toList ++ grouped words,
       " Chars: ".toList ++ grouped chars] ++
      (r.createdAt.filter (· ≠ 0)).toList.map (fun t => "  Created: ".toList ++ dateTimeText t) ++
      (r.updatedAt.filter (· ≠ 0)).toList.map (fun t => "  Updated: ".toList ++ dateTimeText t) ++
      (r.knowledge.filter (·.2 ≠ "")).toList.map fun kb =>
        "      KB: ".toList ++ kb.2.toList ++ " (".toList ++ kb.1.toList ++ ")".toList))

/-- `lines[max(0, start - 1):stop]`. -/
def lineRange (start stop : ℕ) (lines : List Text) : List Text := (lines.take stop).drop (start - 1)

/-- `sed` on piped input. -/
def sedPiped (args : List Text) (flags : List Char) (text : Text) : Except Text Text := do
  let lines := splitLines text
  match (if 'n' ∈ flags then args.head? else none).bind (range? false) with
  | some (a, b) =>
    let start ← intOfDigits a
    let stop ← intOfDigits b
    return joinLines (lineRange start (if stop = 0 then lines.length else stop) lines)
  | none => return joinLines lines

/-- The lines `start` to `stop` of a file. -/
def rangeOf (start stop : ℕ) (r : Resolved) : Text :=
  let lines := splitLines r.content
  joinLines (lineRange start stop lines) ++ "\n[lines ".toList ++ natText start ++ "-".toList ++
    natText (min stop lines.length) ++ " of ".toList ++ natText lines.length ++ "]".toList

/-- `_kb_sed(args, flags, user, model_knowledge, piped_input)`. -/
def kbSed (args : List Text) (flags : List Char) (piped : Option Text) : Except Text Text :=
  match piped with
  | some text => sedPiped args flags text
  | none => do
    -- the last range counts, and the last other argument
    let range := (args.filterMap (range? true)).getLast?
    let ref := ((args.filter fun arg => (range? true arg).isNone).getLast?).filter (· ≠ [])
    match range, ref with
    | some (a, b), some ref =>
      let start ← intOfDigits a
      let stop ← intOfDigits b
      if start > stop then
        return "Invalid range: start (".toList ++ natText start ++ ") > end (".toList ++
          natText stop ++ ")".toList
      else withFile py s user attached ref fun r => .ok (rangeOf start stop r)
    | _, _ => return "Usage: sed -n '40,60p' <file>".toList

end

end OpenWebUI.Knowledge
