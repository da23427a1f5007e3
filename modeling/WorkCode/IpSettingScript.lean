import WorkCode.TextLines
import WorkCode.RepeatPattern
import WorkCode.Locales

/-!
# The script `ip_setting.sh`

The script reads three answers, checks them, and rewrites the persistent start-up
script. A text is the list of its characters, one for each byte. The shell is one
whose `/bin/sh` has `local` and `let`; `echo` writes its arguments verbatim.

`mask2cidr` saves `IFS` in `OFIS` but restores it from `OIFS`, which is never set. From
its return on, `IFS` is therefore empty: the gateway is read without trimming, and
unquoted variables are no longer split into words.

`grep` and `sed` read characters in the locale of the process that runs the script, which does
not set one. The range `[0-9]` is the ten digits.
-/

namespace WorkCode.IpSettingScript

open TextLines RepeatPattern Locales

abbrev Text := List Char

def Line := {l : Text // '\n' ∉ l}

inductive Ifs | default | dot | null deriving DecidableEq, Repr

def blank (c : Char) : Bool := c = ' ' || c = '\t' || c = '\n'

/-- Field splitting of an unquoted expansion. A dot ends a field, so a final dot does
not begin another one. -/
def fieldSplit : Ifs → Text → List Text
  | .default, s => words blank s
  | .dot, s =>
    let fields := s.splitOn '.'
    if fields.getLastD [] = [] then fields.dropLast else fields
  | .null, s => if s = [] then [] else [s]

/-- What the handling of an answer takes from outside the script: the locale, pathname expansion
in the current directory, the outcome of `[ -z … ]` with more than one operand, and what `grep`
prints of a text that is not made of characters. -/
structure Shell where
  locale : LcCtype
  glob : Text → List Text
  testMany : List Text → Bool
  grepBinary : Text → Text

namespace Shell

def expand (sh : Shell) (ifs : Ifs) (x : Text) : List Text := (fieldSplit ifs x).flatMap sh.glob

/-- `[ -z $x ]`; without an operand `-z` is a non-empty string, hence true. -/
def testZ (sh : Shell) (ifs : Ifs) (x : Text) : Bool :=
  match sh.expand ifs x with
  | [] => true
  | [w] => w.isEmpty
  | ws => sh.testMany ws

end Shell

/-- One input line with the characters that a backslash protects marked; a backslash
before the line break joins the next line on, and one at the end is dropped. -/
def readLine : Text → List (Char × Bool) × Text
  | '\\' :: '\n' :: stdin => readLine stdin
  | '\\' :: c :: stdin => ((c, true) :: (readLine stdin).1, (readLine stdin).2)
  | ['\\'] => ([], [])
  | '\n' :: stdin => ([], stdin)
  | c :: stdin => ((c, false) :: (readLine stdin).1, (readLine stdin).2)
  | [] => ([], [])

def trim (ifs : Ifs) (l : List (Char × Bool)) : List (Char × Bool) :=
  match ifs with
  | .default =>
    let drop := List.dropWhile fun (c : Char × Bool) => blank c.1 && !c.2
    (drop (drop l).reverse).reverse
  | _ => l

theorem not_mem_readLine (stdin : Text) : '\n' ∉ (readLine stdin).1.map Prod.fst := by
  induction stdin using readLine.induct with
  | case1 stdin ih => simpa [readLine] using ih
  | case2 c stdin hc ih =>
    have hc' : c ≠ '\n' := hc
    simpa [readLine, Ne.symm hc'] using ih
  | case3 => simp [readLine]
  | case4 stdin => simp [readLine]
  | case5 c stdin h₁ h₂ h₃ h₄ ih =>
    have hc : '\n' ≠ c := fun h => h₄ h.symm
    simpa [readLine, hc] using ih
  | case6 => simp [readLine]

theorem trim_sublist (ifs : Ifs) (l : List (Char × Bool)) : (trim ifs l).Sublist l := by
  cases ifs with
  | default =>
    simp only [trim]
    rw [← List.reverse_sublist, List.reverse_reverse]
    refine (List.dropWhile_sublist _).trans (List.reverse_sublist.mpr ?_)
    exact List.dropWhile_sublist _
  | dot => exact .refl l
  | null => exact .refl l

/-- `read input`: the value of `input`, and what is left to read. NUL characters are
dropped. -/
def read (ifs : Ifs) (stdin : Text) : Line × Text :=
  let stdin := stdin.filter (· ≠ '\x00')
  (⟨(trim ifs (readLine stdin).1).map Prod.fst,
    fun h => not_mem_readLine stdin (((trim_sublist ifs _).map _).subset h)⟩, (readLine stdin).2)

def isDigit : Item → Bool
  | .character [c] => decide ('0' ≤ c ∧ c ≤ '9')
  | _ => false

def digit13 : Atom Item := ⟨isDigit, 1, some 3⟩

def dot : List (Atom Item) := literal (plain ['.'])

/-- `[0-9]\{1,3\}\.[0-9]\{1,3\}\.[0-9]\{1,3\}\.[0-9]\{1,3\}` -/
def quadPattern : List (Atom Item) :=
  digit13 :: dot ++ digit13 :: dot ++ digit13 :: dot ++ [digit13]

def finds (locale : LcCtype) (pattern : List (Atom Item)) (line : Text) : Bool :=
  search pattern (locale.decode line)

/-- The output of `grep`, without the last line break. -/
def grep (sh : Shell) (pattern : List (Atom Item)) (text : Text) : Text :=
  if (sh.locale.decode text).all Item.isCharacter then
    ['\n'].intercalate ((text.splitOn '\n').filter (finds sh.locale pattern))
  else sh.grepBinary text

/-- `valid_ip $input`: whether the function returns instead of leaving the script. -/
def validIp (sh : Shell) (ifs : Ifs) (input : Text) : Bool :=
  let arg1 := (sh.expand ifs input).headD []
  let echoed := [' '].intercalate (sh.expand ifs arg1)
  !sh.testZ ifs (grep sh quadPattern echoed)

def maskBits (dec : Text) : Option ℕ :=
  if dec = ['2', '5', '5'] then some 8
  else if dec = ['2', '5', '4'] then some 7
  else if dec = ['2', '5', '2'] then some 6
  else if dec = ['2', '4', '8'] then some 5
  else if dec = ['2', '4', '0'] then some 4
  else if dec = ['2', '2', '4'] then some 3
  else if dec = ['1', '9', '2'] then some 2
  else if dec = ['1', '2', '8'] then some 1
  else if dec = ['0'] then some 0
  else none

/-- The `for` loop over the fields, left with `-1` at the first one not recognised. -/
def maskLoop : List Text → ℤ → ℤ
  | [], nbits => nbits
  | dec :: rest, nbits => match maskBits dec with
    | some n => maskLoop rest (nbits + n)
    | none => -1

def maskFields (sh : Shell) (ifs : Ifs) (mask : Text) : List Text :=
  sh.expand .dot ((sh.expand ifs mask).headD [])

/-- `mask2cidr`: the value of `$?` after `return $nbits`, unless it leaves the script. -/
def mask2cidr (sh : Shell) (ifs : Ifs) (mask : Text) : Option ℕ :=
  let nbits := maskLoop (maskFields sh ifs mask) 0
  if nbits = -1 then none else some (nbits % 256).toNat

structure Answers where
  sensorIp : Line
  bitNetmask : ℕ
  sensorGw : Line

/-- The three prompts; `none` when one of the checks leaves the script. -/
def prompts (sh : Shell) (stdin : Text) : Option Answers :=
  let (sensorIp, stdin) := read .default stdin
  if !validIp sh .default sensorIp.val then none else
  let (sensorNetmask, stdin) := read .default stdin
  if !validIp sh .default sensorNetmask.val then none else
  match mask2cidr sh .default sensorNetmask.val with
  | none => none
  | some bitNetmask =>
    let (sensorGw, _) := read .null stdin
    if !validIp sh .null sensorGw.val then none else
    some ⟨sensorIp, bitNetmask, sensorGw⟩

def devEth1 : Text := " dev eth1".toList
def ipAddrAdd : Text := "ip addr add ".toList
def ipRouteAdd : Text := "ip route add default via ".toList

def addressLine (a : Answers) : Text :=
  ipAddrAdd ++ a.sensorIp.val ++ '/' :: Nat.toDigits 10 a.bitNetmask ++ devEth1

def routeLine (a : Answers) : Text := ipRouteAdd ++ a.sensorGw.val ++ devEth1

def appended (a : Answers) : Text := addressLine a ++ '\n' :: (routeLine a ++ ['\n'])

/-- `/ip addr add .* dev eth1/` and `/ip route add default via .* dev eth1/` -/
def addressPattern : List (Atom Item) :=
  literal (plain ipAddrAdd) ++ anything Item.isCharacter :: literal (plain devEth1)

def routePattern : List (Atom Item) :=
  literal (plain ipRouteAdd) ++ anything Item.isCharacter :: literal (plain devEth1)

def sedDelete (locale : LcCtype) (pattern : List (Atom Item)) (content : Text) : Text :=
  filterLines '\n' (fun l => !finds locale pattern l) content

/-- The rewriting part of the script, from `sed` to the second `echo`, when every command
succeeds: the new content of the file at `IP_SETTING`. -/
def rewrite (locale : LcCtype) (a : Answers) (content : Text) : Text :=
  let content := sedDelete locale addressPattern content
  let content := sedDelete locale routePattern content
  content ++ appended a

end WorkCode.IpSettingScript
