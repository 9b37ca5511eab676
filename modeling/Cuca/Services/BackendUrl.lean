import Cuca.Services.Scheduler
import Cuca.Sse.Parser
import Mathlib.Data.List.TakeWhile

/-!
# The identity of a base URL

Two base URLs with the same identity share one scheduler. Texts are their characters.

* `parseIp`, `isLoopback` : the addresses that `IpAddr` reads;
* `splitHostPort`, `canonicalHost`, `parse` : the identity;
* `BaseUrl`, `Agree` : URLs with a host and a port, and what they agree on;
* `parse_text` : the identity of a URL, from its parts;
* `parse_eq_iff` : two URLs share an identity where they agree, but for a host that is named `loopback`.
-/

namespace Cuca.Services.BackendId

/-! ## Texts -/

/-- `str::trim` -/
def trim (s : List Char) : List Char := ((s.dropWhile Sse.isWhitespace).reverse.dropWhile Sse.isWhitespace).reverse

/-- `str::to_ascii_lowercase` -/
def lower (s : List Char) : List Char := s.map Char.toLower

/-- `trim_end_matches('/')` -/
def trimSlashes (s : List Char) : List Char := (s.reverse.dropWhile (· = '/')).reverse

/-- `split_once` at a character. -/
def splitOnce (sep : Char) (s : List Char) : Option (List Char × List Char) :=
  if sep ∈ s then some (s.takeWhile (· ≠ sep), (s.dropWhile (· ≠ sep)).tail) else none

/-- `rsplit_once` at a character. -/
def rsplitOnce (sep : Char) (s : List Char) : Option (List Char × List Char) :=
  (splitOnce sep s.reverse).map fun parts => (parts.2.reverse, parts.1.reverse)

/-- `split_once("://")` -/
def splitScheme : List Char → Option (List Char × List Char)
  | [] => none
  | c :: s => if [':', '/', '/'] <+: c :: s then some ([], s.drop 2) else (splitScheme s).map fun parts => (c :: parts.1, parts.2)

/-- `str::parse::<u16>` -/
def parseU16 (s : List Char) : Option Nat :=
  let digits := if s.head? = some '+' then s.tail else s
  if digits.isEmpty || !digits.all Char.isDigit || Nat.ofDigitChars 10 digits 0 ≥ 2 ^ 16 then none else some (Nat.ofDigitChars 10 digits 0)

/-! ## Addresses -/

inductive IpAddr where
  | v4 (octets : List Nat)
  | v6 (segments : List Nat)
  deriving DecidableEq, Repr

def IpAddr.isLoopback : IpAddr → Bool
  | v4 octets => octets.head? = some 127
  | v6 segments => segments = [0, 0, 0, 0, 0, 0, 0, 1]

/-- `char::to_digit` -/
def toDigit (radix : Nat) (c : Char) : Option Nat :=
  let digit :=
    if '0' ≤ c ∧ c ≤ '9' then c.toNat - '0'.toNat
    else if 'a' ≤ c ∧ c ≤ 'z' then c.toNat - 'a'.toNat + 10
    else if 'A' ≤ c ∧ c ≤ 'Z' then c.toNat - 'A'.toNat + 10
    else radix
  if digit < radix then some digit else none

/-- `read_number` : digits up to a number of them, not beyond the largest value. -/
def readNumber (radix maxDigits : Nat) (allowZeroPrefix : Bool) (largest : Nat) (s : List Char) : Option (Nat × List Char) :=
  let digits := s.takeWhile fun c => (toDigit radix c).isSome
  let n := digits.foldl (fun n c => n * radix + (toDigit radix c).getD 0) 0
  if digits = [] ∨ maxDigits < digits.length ∨ largest < n ∨ (allowZeroPrefix = false ∧ digits.head? = some '0' ∧ 1 < digits.length) then none
  else some (n, s.drop digits.length)

/-- `read_separator` : nothing is read before the first part. -/
def readSeparator (sep : Char) (index : Nat) (s : List Char) : Option (List Char) :=
  if index = 0 then some s else if s.head? = some sep then some s.tail else none

def readIpv4 (s : List Char) : Option (List Nat × List Char) :=
  (List.range 4).foldlM (fun read index => do
    let rest ← readSeparator '.' index read.2
    let number ← readNumber 10 3 false 255 rest
    return (read.1 ++ [number.1], number.2)) ([], s)

/-- `read_groups` : groups of an IPv6 address, up to `limit`; and whether the last two are an IPv4 address. -/
def readGroups (limit : Nat) : Nat → List Nat → List Char → List Nat × Bool × List Char
  | 0, groups, s => (groups, false, s)
  | left + 1, groups, s =>
    let index := groups.length
    match if index + 1 < limit then (readSeparator ':' index s).bind readIpv4 else none with
    | some ([a, b, c, d], rest) => (groups ++ [a * 256 + b, c * 256 + d], true, rest)
    | _ =>
      match (readSeparator ':' index s).bind (readNumber 16 4 true (2 ^ 16 - 1)) with
      | some (group, rest) => readGroups limit left (groups ++ [group]) rest
      | none => (groups, false, s)

def readIpv6 (s : List Char) : Option (List Nat × List Char) :=
  let (head, headIpv4, s) := readGroups 8 8 [] s
  if head.length = 8 then some (head, s)
  else if headIpv4 then none
  else
    match s with
    | ':' :: ':' :: s =>
      let limit := 8 - (head.length + 1)
      let (tail, _, s) := readGroups limit limit [] s
      some (head ++ List.replicate (8 - head.length - tail.length) 0 ++ tail, s)
    | _ => none

/-- `str::parse::<IpAddr>` : the whole text is read, as an IPv4 address first. -/
def parseIp (s : List Char) : Option IpAddr :=
  match readIpv4 s with
  | some (octets, rest) => if rest = [] then some (.v4 octets) else none
  | none =>
    match readIpv6 s with
    | some (segments, rest) => if rest = [] then some (.v6 segments) else none
    | none => none

/-! ## The identity -/

/-- `host[:port]` -/
def splitPort (authority : List Char) : List Char × Option Nat :=
  match rsplitOnce ':' authority with
  | some (host, port) =>
    if ':' ∈ host then (authority, none)
    else
      match parseU16 port with
      | some port => (host, some port)
      | none => (authority, none)
  | none => (authority, none)

/-- `host[:port]`, `[v6][:port]` or a bare IPv6 literal. -/
def splitHostPort (authority : List Char) : List Char × Option Nat :=
  match authority with
  | '[' :: bracketed =>
    match splitOnce ']' bracketed with
    | some (host, after) => (host, if after.head? = some ':' then parseU16 after.tail else none)
    | none => (authority, none)
  | _ => splitPort authority

def LOCALHOST : List Char := ['l', 'o', 'c', 'a', 'l', 'h', 'o', 's', 't']

def LOOPBACK : List Char := ['l', 'o', 'o', 'p', 'b', 'a', 'c', 'k']

def isLoopback (host : List Char) : Bool := lower host = LOCALHOST || (parseIp (lower host)).any IpAddr.isLoopback

def canonicalHost (host : List Char) : List Char := if isLoopback host then LOOPBACK else lower host

def HTTP : List Char := ['h', 't', 't', 'p']

def HTTPS : List Char := ['h', 't', 't', 'p', 's']

def defaultPort (scheme : List Char) : Option Nat := if scheme = HTTP then some 80 else if scheme = HTTPS then some 443 else none

def parse (baseUrl : List Char) : BackendId :=
  let trimmed := trim baseUrl
  match splitScheme trimmed with
  | none => ⟨String.ofList (lower (trimSlashes trimmed))⟩
  | some (scheme, rest) =>
    let scheme := lower scheme
    let authority := rest.takeWhile (· ≠ '/')
    let path := rest.dropWhile (· ≠ '/')
    let authority := ((rsplitOnce '@' authority).map Prod.snd).getD authority
    let (host, port) := splitHostPort authority
    let host := canonicalHost host
    let path := trimSlashes path
    match port.or (defaultPort scheme) with
    | some port => ⟨String.ofList (scheme ++ [':', '/', '/'] ++ host ++ ':' :: Nat.toDigits 10 port ++ path)⟩
    | none => ⟨String.ofList (scheme ++ [':', '/', '/'] ++ host ++ path)⟩

example : parse "HTTP://me@[::1]:01234/v1/".toList = ⟨"http://loopback:1234/v1"⟩ := by decide +kernel

/-! ## URLs -/

/-- A host: a name or an IPv4 literal, or what stands in the brackets of an IPv6 literal. -/
inductive Host where
  | named (text : List Char)
  | ipv6 (text : List Char)
  deriving DecidableEq

namespace Host

def text : Host → List Char
  | named text => text
  | ipv6 text => text

def written : Host → List Char
  | named text => text
  | ipv6 text => '[' :: (text ++ [']'])

/-- A name has none of the characters that delimit it; an IPv6 literal is hexadecimal digits, colons and dots, with a colon. -/
def Valid : Host → Prop
  | named text => text ≠ [] ∧ ∀ c ∈ text, Sse.isWhitespace c = false ∧ c ≠ ':' ∧ c ≠ '/' ∧ c ≠ '@' ∧ c ≠ '[' ∧ c ≠ ']'
  | ipv6 text => ':' ∈ text ∧ ∀ c ∈ text, (toDigit 16 c).isSome = true ∨ c = ':' ∨ c = '.'

end Host

/-- `scheme://[userinfo@]host[:port][path]` -/
structure BaseUrl where
  scheme : List Char
  userinfo : Option (List Char)
  host : Host
  port : Option (List Char)
  path : List Char

namespace BaseUrl

/-- `host[:port]` -/
def hostPort (u : BaseUrl) : List Char := u.host.written ++ (u.port.map (':' :: ·)).getD []

def authority (u : BaseUrl) : List Char := (u.userinfo.map (· ++ ['@'])).getD [] ++ u.hostPort

def text (u : BaseUrl) : List Char := u.scheme ++ ':' :: '/' :: '/' :: (u.authority ++ u.path)

/-- A URL of `http` or `https`, whose port is below 65536; white space at its end is none of it. -/
structure Valid (u : BaseUrl) : Prop where
  scheme : lower u.scheme = HTTP ∨ lower u.scheme = HTTPS
  userinfo : ∀ info, u.userinfo = some info → '/' ∉ info
  host : u.host.Valid
  port : ∀ digits, u.port = some digits → digits ≠ [] ∧ (∀ c ∈ digits, c.isDigit = true) ∧ Nat.ofDigitChars 10 digits 0 < 2 ^ 16
  path : u.path = [] ∨ u.path.head? = some '/'
  last : ∀ c, u.path.getLast? = some c → Sse.isWhitespace c = false

/-- The port, or the scheme's own. -/
def effectivePort (u : BaseUrl) : Nat :=
  match u.port with
  | some digits => Nat.ofDigitChars 10 digits 0
  | none => if lower u.scheme = HTTP then 80 else 443

end BaseUrl

/-- The same host: the same in lower case, or both are this machine. -/
def SameHost (h h' : Host) : Prop :=
  (isLoopback h.text = true ∧ isLoopback h'.text = true) ∨
    match h, h' with
    | .named text, .named text' => lower text = lower text'
    | .ipv6 text, .ipv6 text' => lower text = lower text'
    | _, _ => False

/-- URLs that agree on scheme, port and path. -/
structure Otherwise (u v : BaseUrl) : Prop where
  scheme : lower u.scheme = lower v.scheme
  port : u.effectivePort = v.effectivePort
  path : trimSlashes u.path = trimSlashes v.path

def Agree (u v : BaseUrl) : Prop := Otherwise u v ∧ SameHost u.host v.host

/-! ## Reading a URL -/

section
variable {sep : Char} {a b s : List Char}

theorem takeWhile_ne (h : sep ∉ a) : (a ++ sep :: b).takeWhile (· ≠ sep) = a ∧ (a ++ sep :: b).dropWhile (· ≠ sep) = sep :: b := by
  have hall : ∀ c ∈ a, decide (c ≠ sep) = true := fun c hc => decide_eq_true fun heq => h (heq ▸ hc)
  rw [List.takeWhile_append_of_pos hall, List.dropWhile_append_of_pos hall, List.takeWhile_cons_of_neg (by simp), List.dropWhile_cons_of_neg (by simp)]
  exact ⟨List.append_nil a, rfl⟩

theorem splitOnce_append (h : sep ∉ a) (b : List Char) : splitOnce sep (a ++ sep :: b) = some (a, b) := by
  obtain ⟨hbefore, hafter⟩ := takeWhile_ne (b := b) h
  rw [splitOnce, if_pos (List.mem_append_right a List.mem_cons_self), hbefore, hafter, List.tail_cons]

theorem rsplitOnce_append (a : List Char) (h : sep ∉ b) : rsplitOnce sep (a ++ sep :: b) = some (a, b) := by
  have hreverse : (a ++ sep :: b).reverse = b.reverse ++ sep :: a.reverse := by simp
  rw [rsplitOnce, hreverse, splitOnce_append (by rwa [List.mem_reverse]), Option.map_some, List.reverse_reverse, List.reverse_reverse]

theorem rsplitOnce_none (h : sep ∉ s) : rsplitOnce sep s = none := by
  rw [rsplitOnce, splitOnce, if_neg (by rwa [List.mem_reverse])]
  rfl

theorem cut_path (ha : '/' ∉ a) (hb : b = [] ∨ b.head? = some '/') :
    (a ++ b).takeWhile (· ≠ '/') = a ∧ (a ++ b).dropWhile (· ≠ '/') = b := by
  rcases hb with rfl | hb
  · have hall : ∀ c ∈ a, decide (c ≠ '/') = true := fun c hc => decide_eq_true fun heq => ha (heq ▸ hc)
    rw [List.append_nil, List.takeWhile_eq_self_iff.mpr hall, List.dropWhile_eq_nil_iff.mpr hall]
    exact ⟨rfl, rfl⟩
  · obtain ⟨rest, rfl⟩ := List.head?_eq_some_iff.mp hb
    exact takeWhile_ne ha

theorem splitScheme_append (h : ':' ∉ s) (rest : List Char) : splitScheme (s ++ ':' :: '/' :: '/' :: rest) = some (s, rest) := by
  induction s with
  | nil =>
    rw [List.nil_append, splitScheme, if_pos (by simp)]
    rfl
  | cons c s ih =>
    rw [List.mem_cons, not_or] at h
    rw [List.cons_append, splitScheme, if_neg (fun hcolon => h.1 (List.cons_prefix_cons.mp hcolon).1), ih h.2, Option.map_some]

theorem trim_eq (hfirst : ∀ c, s.head? = some c → Sse.isWhitespace c = false) (hlast : ∀ c, s.getLast? = some c → Sse.isWhitespace c = false) :
    trim s = s := by
  have hdrop {s : List Char} (h : ∀ c, s.head? = some c → Sse.isWhitespace c = false) : s.dropWhile Sse.isWhitespace = s := by
    rcases s with _ | ⟨c, s⟩
    · rfl
    · rw [List.dropWhile_cons_of_neg (by rw [h c rfl]; exact Bool.false_ne_true)]
  rw [trim, hdrop hfirst, hdrop (by simpa using hlast), List.reverse_reverse]

theorem parseU16_digits (hne : s ≠ []) (hdigits : ∀ c ∈ s, c.isDigit = true) (hlt : Nat.ofDigitChars 10 s 0 < 2 ^ 16) :
    parseU16 s = some (Nat.ofDigitChars 10 s 0) := by
  have hplus : s.head? ≠ some '+' := by
    intro h
    have hdigit := hdigits '+' (List.mem_of_mem_head? h)
    exact absurd hdigit (by decide)
  unfold parseU16
  dsimp only
  rw [if_neg hplus, if_neg]
  simp only [Bool.or_eq_true, List.isEmpty_iff, Bool.not_eq_true', List.all_eq_false, decide_eq_true_eq, not_or]
  refine ⟨⟨hne, ?_⟩, Nat.not_le.mpr hlt⟩
  rintro ⟨c, hc, hnot⟩
  exact hnot (hdigits c hc)

end

section
variable {h : Host}

theorem Host.Valid.text (hvalid : h.Valid) : '/' ∉ h.text ∧ '@' ∉ h.text ∧ ']' ∉ h.text ∧ (':' ∈ h.text ↔ h = .ipv6 h.text) := by
  rcases h with text | text
  · obtain ⟨-, hchars⟩ := hvalid
    refine ⟨fun hc => (hchars _ hc).2.2.1 rfl, fun hc => (hchars _ hc).2.2.2.1 rfl, fun hc => (hchars _ hc).2.2.2.2.2 rfl, ?_⟩
    exact ⟨fun hc => absurd rfl (hchars _ hc).2.1, fun heq => by cases heq⟩
  · obtain ⟨hcolon, hchars⟩ := hvalid
    have hother {c : Char} (hc : c ∈ text) (hdigit : toDigit 16 c = none) : c = ':' ∨ c = '.' :=
      (hchars c hc).resolve_left (by rw [hdigit]; exact Bool.false_ne_true)
    refine ⟨fun hc => ?_, fun hc => ?_, fun hc => ?_, fun _ => rfl, fun _ => hcolon⟩
    · exact absurd (hother hc (by decide)) (by decide)
    · exact absurd (hother hc (by decide)) (by decide)
    · exact absurd (hother hc (by decide)) (by decide)

/-- **Host and port**, with brackets and without, with a port and without. -/
theorem splitHostPort_written (hvalid : h.Valid) {port : Option (List Char)}
    (hport : ∀ digits, port = some digits → digits ≠ [] ∧ (∀ c ∈ digits, c.isDigit = true) ∧ Nat.ofDigitChars 10 digits 0 < 2 ^ 16) :
    splitHostPort (h.written ++ (port.map (':' :: ·)).getD []) = (h.text, port.map (Nat.ofDigitChars 10 · 0)) := by
  obtain ⟨-, -, hbracket, hcolon⟩ := hvalid.text
  rcases h with text | text
  · have hnocolon : ':' ∉ text := fun hc => by cases hcolon.mp hc
    have hnobracket (more : List Char) : (text ++ more).head? ≠ some '[' := by
      obtain ⟨hne, hchars⟩ := hvalid
      rcases text with _ | ⟨c, text⟩
      · exact absurd rfl hne
      · exact fun heq => (hchars c List.mem_cons_self).2.2.2.2.1 (Option.some.inj heq)
    have hplain (more : List Char) : splitHostPort (text ++ more) = splitPort (text ++ more) := by
      unfold splitHostPort
      split
      · rename_i heq
        exact absurd (congrArg List.head? heq) (hnobracket more)
      · rfl
    show splitHostPort (text ++ _) = (text, _)
    rw [hplain, splitPort]
    rcases port with _ | digits
    · rw [Option.map_none, Option.getD_none, List.append_nil, rsplitOnce_none hnocolon]
      rfl
    · obtain ⟨hne, hdigits, hlt⟩ := hport digits rfl
      have hlast : ':' ∉ digits := fun hc => absurd (hdigits ':' hc) (by decide)
      rw [Option.map_some, Option.getD_some, rsplitOnce_append text hlast]
      dsimp only
      rw [if_neg hnocolon, parseU16_digits hne hdigits hlt]
      rfl
  · have hwritten (more : List Char) : (Host.ipv6 text).written ++ more = '[' :: (text ++ ']' :: more) := by simp [Host.written]
    rw [hwritten, splitHostPort, splitOnce_append (a := text) hbracket]
    dsimp only
    rcases port with _ | digits
    · rfl
    · obtain ⟨hne, hdigits, hlt⟩ := hport digits rfl
      rw [Option.map_some, Option.getD_some, List.head?_cons, if_pos rfl, List.tail_cons, parseU16_digits hne hdigits hlt]
      rfl

theorem Host.Valid.written (hvalid : h.Valid) : '/' ∉ h.written ∧ '@' ∉ h.written ∧
    ∃ c, h.written.getLast? = some c ∧ Sse.isWhitespace c = false := by
  obtain ⟨hslash, hat, -⟩ := hvalid.text
  rcases h with text | text
  · obtain ⟨hne, hchars⟩ := hvalid
    exact ⟨hslash, hat, _, List.getLast?_eq_some_getLast hne, (hchars _ (List.getLast_mem hne)).1⟩
  · refine ⟨fun hc => hslash ?_, fun hc => hat ?_, ']', ?_, by decide⟩
    · simpa [Host.written, Host.text] using hc
    · simpa [Host.written, Host.text] using hc
    · exact List.getLast?_concat (l := '[' :: text)

end

section
variable {u v : BaseUrl}

theorem lower_char {c d : Char} (hd : d ∈ HTTP ++ HTTPS) (h : c.toLower = d) : c ≠ ':' ∧ Sse.isWhitespace c = false := by
  have hletter : d ≠ ':' ∧ Sse.isWhitespace d = false := by
    have hall := List.all_eq_true.mp (by decide : ((HTTP ++ HTTPS).all fun d => d != ':' && !Sse.isWhitespace d) = true) d hd
    simpa using hall
  have hsame (hnot : ¬ (65 ≤ c.val.toNat ∧ c.val.toNat ≤ 90)) : c = d := h ▸ (dif_neg hnot : c.toLower = c).symm
  constructor
  · rintro rfl
    exact hletter.1 (hsame (by decide)).symm
  · by_contra hblank
    rw [Bool.not_eq_false] at hblank
    have hcode : ¬ (65 ≤ c.val.toNat ∧ c.val.toNat ≤ 90) := by
      unfold Sse.isWhitespace at hblank
      simp only [Bool.or_eq_true, Bool.and_eq_true, decide_eq_true_eq, beq_iff_eq] at hblank
      change ¬ (65 ≤ c.toNat ∧ c.toNat ≤ 90)
      omega
    rw [hsame hcode] at hblank
    exact Bool.false_ne_true (hletter.2.symm.trans hblank)

theorem BaseUrl.Valid.hostPort (hu : u.Valid) : '/' ∉ u.hostPort ∧ '@' ∉ u.hostPort ∧
    ∃ c, u.hostPort.getLast? = some c ∧ Sse.isWhitespace c = false := by
  obtain ⟨hslash, hat, last, hlast, hblank⟩ := hu.host.written
  unfold BaseUrl.hostPort
  rcases hport : u.port with _ | digits
  · rw [Option.map_none, Option.getD_none, List.append_nil]
    exact ⟨hslash, hat, last, hlast, hblank⟩
  · obtain ⟨hne, hdigits, -⟩ := hu.port digits hport
    have hother {c : Char} (hc : c ∈ ':' :: digits) : c = ':' ∨ c.isDigit = true := (List.mem_cons.mp hc).imp_right (hdigits c)
    rw [Option.map_some, Option.getD_some]
    refine ⟨fun hc => ?_, fun hc => ?_, digits.getLast hne, ?_, ?_⟩
    · exact (List.mem_append.mp hc).elim hslash fun hc => absurd (hother hc) (by decide)
    · exact (List.mem_append.mp hc).elim hat fun hc => absurd (hother hc) (by decide)
    · rw [List.getLast?_append, List.getLast?_cons_of_ne_nil hne, List.getLast?_eq_some_getLast hne, Option.some_or]
    · have hdigit := hdigits _ (List.getLast_mem hne)
      by_contra hblank
      rw [Bool.not_eq_false] at hblank
      rw [Char.isDigit_iff_toNat] at hdigit
      change 48 ≤ _ ∧ _ ≤ 57 at hdigit
      unfold Sse.isWhitespace at hblank
      simp only [Bool.or_eq_true, Bool.and_eq_true, decide_eq_true_eq, beq_iff_eq] at hblank
      omega

theorem BaseUrl.Valid.authority (hu : u.Valid) : '/' ∉ u.authority ∧
    ((rsplitOnce '@' u.authority).map Prod.snd).getD u.authority = u.hostPort := by
  obtain ⟨hslash, hat, -⟩ := hu.hostPort
  unfold BaseUrl.authority
  rcases hinfo : u.userinfo with _ | info
  · rw [Option.map_none, Option.getD_none, List.nil_append, rsplitOnce_none hat]
    exact ⟨hslash, rfl⟩
  · have hsplit : (Option.map (· ++ ['@']) (some info)).getD [] ++ u.hostPort = info ++ '@' :: u.hostPort := by simp
    rw [hsplit, rsplitOnce_append info hat]
    refine ⟨fun hc => ?_, rfl⟩
    rcases List.mem_append.mp hc with hc | hc
    · exact hu.userinfo info hinfo hc
    · exact (List.mem_cons.mp hc).elim (by decide) hslash

theorem BaseUrl.Valid.letters (hu : u.Valid) : u.scheme ≠ [] ∧ ∀ c ∈ u.scheme, c ≠ ':' ∧ Sse.isWhitespace c = false := by
  refine ⟨fun hnil => ?_, fun c hc => ?_⟩
  · have hscheme := hu.scheme
    rw [hnil] at hscheme
    exact absurd hscheme (by decide)
  · have hlower : c.toLower ∈ HTTP ++ HTTPS := by
      rcases hu.scheme with h | h
      · exact List.mem_append_left _ (h ▸ List.mem_map_of_mem hc)
      · exact List.mem_append_right _ (h ▸ List.mem_map_of_mem hc)
    exact lower_char hlower rfl

theorem BaseUrl.Valid.trim (hu : u.Valid) : trim u.text = u.text := by
  obtain ⟨hne, hletters⟩ := hu.letters
  apply trim_eq
  · obtain ⟨c, scheme, hscheme⟩ := List.exists_cons_of_ne_nil hne
    intro first hfirst
    rw [BaseUrl.text, hscheme, List.cons_append, List.head?_cons, Option.some_inj] at hfirst
    exact (hletters first (by rw [hscheme, hfirst]; exact List.mem_cons_self)).2
  · intro last hlast
    obtain ⟨-, -, c, hc, hblank⟩ := hu.hostPort
    have hauthority : u.authority.getLast? = some c := by rw [BaseUrl.authority, List.getLast?_append, hc, Option.some_or]
    have hrest : (u.authority ++ u.path).getLast? = u.path.getLast?.or (some c) := by rw [List.getLast?_append, hauthority]
    have hwhole : u.text.getLast? = u.path.getLast?.or (some c) := by
      have hsplit : u.text = (u.scheme ++ [':', '/', '/']) ++ (u.authority ++ u.path) := by simp [BaseUrl.text]
      rw [hsplit, List.getLast?_append, hrest]
      cases u.path.getLast? <;> rfl
    rw [hwhole] at hlast
    rcases hpath : u.path.getLast? with _ | d
    · rw [hpath, Option.none_or, Option.some_inj] at hlast
      exact hlast ▸ hblank
    · rw [hpath, Option.some_or, Option.some_inj] at hlast
      exact hu.last last (hlast ▸ hpath)

theorem BaseUrl.Valid.port_eq (hu : u.Valid) :
    (u.port.map (Nat.ofDigitChars 10 · 0)).or (defaultPort (lower u.scheme)) = some u.effectivePort := by
  unfold BaseUrl.effectivePort
  rcases u.port with _ | digits
  · rw [Option.map_none, Option.none_or, defaultPort]
    by_cases hhttp : lower u.scheme = HTTP
    · rw [if_pos hhttp, if_pos hhttp]
    · rw [if_neg hhttp, if_pos (hu.scheme.resolve_left hhttp), if_neg hhttp]
  · rfl

theorem parse_text (hu : u.Valid) : parse u.text = ⟨String.ofList (lower u.scheme ++ [':', '/', '/'] ++ canonicalHost u.host.text ++
    ':' :: Nat.toDigits 10 u.effectivePort ++ trimSlashes u.path)⟩ := by
  obtain ⟨hslash, hat⟩ := hu.authority
  obtain ⟨hauthority, hpath⟩ := cut_path hslash hu.path
  have hcolon : ':' ∉ u.scheme := fun hc => (hu.letters.2 ':' hc).1 rfl
  unfold parse
  dsimp only
  rw [hu.trim, BaseUrl.text, splitScheme_append hcolon]
  dsimp only
  rw [hauthority, hpath, hat, BaseUrl.hostPort, splitHostPort_written hu.host hu.port]
  dsimp only
  rw [hu.port_eq]

/-! ## Telling URLs apart -/

theorem identity_inj {scheme scheme' host host' path path' : List Char} {port port' : Nat} (hscheme : ':' ∉ scheme) (hscheme' : ':' ∉ scheme')
    (hhost : '/' ∉ host) (hhost' : '/' ∉ host') (hpath : path = [] ∨ path.head? = some '/') (hpath' : path' = [] ∨ path'.head? = some '/')
    (h : scheme ++ [':', '/', '/'] ++ host ++ ':' :: Nat.toDigits 10 port ++ path =
      scheme' ++ [':', '/', '/'] ++ host' ++ ':' :: Nat.toDigits 10 port' ++ path') :
    scheme = scheme' ∧ host = host' ∧ port = port' ∧ path = path' := by
  have hshape (scheme host path : List Char) (port : Nat) : scheme ++ [':', '/', '/'] ++ host ++ ':' :: Nat.toDigits 10 port ++ path =
      scheme ++ ':' :: '/' :: '/' :: (host ++ ':' :: Nat.toDigits 10 port ++ path) := by simp
  have hdigits (port : Nat) (c : Char) (hc : c.isDigit = false) : c ∉ Nat.toDigits 10 port := fun hmem =>
    Bool.false_ne_true (hc.symm.trans (Nat.isDigit_of_mem_toDigits (by decide) (by decide) hmem))
  have hauthority {host : List Char} (hhost : '/' ∉ host) (port : Nat) : '/' ∉ host ++ ':' :: Nat.toDigits 10 port := by
    intro hc
    rcases List.mem_append.mp hc with hc | hc
    · exact hhost hc
    · exact (List.mem_cons.mp hc).elim (by decide) (hdigits port '/' (by decide))
  rw [hshape, hshape] at h
  have hrest := (splitScheme_append hscheme _).symm.trans ((congrArg splitScheme h).trans (splitScheme_append hscheme' _))
  rw [Option.some_inj, Prod.mk.injEq] at hrest
  obtain ⟨rfl, hrest⟩ := hrest
  obtain ⟨hleft, hright⟩ := cut_path (hauthority hhost port) hpath
  obtain ⟨hleft', hright'⟩ := cut_path (hauthority hhost' port') hpath'
  rw [hrest] at hleft hright
  have hhosts := (rsplitOnce_append host (hdigits port ':' (by decide))).symm.trans
    ((congrArg (rsplitOnce ':') (hleft.symm.trans hleft')).trans (rsplitOnce_append host' (hdigits port' ':' (by decide))))
  rw [Option.some_inj, Prod.mk.injEq] at hhosts
  obtain ⟨rfl, hports⟩ := hhosts
  have hport : port = port' := by rw [← @Nat.ofDigitChars_ten_toDigits port, hports, Nat.ofDigitChars_ten_toDigits]
  exact ⟨rfl, rfl, hport, hright.symm.trans hright'⟩

theorem toLower_eq {c d : Char} (h : c.toLower = d) (hd : d ∈ ['/', ':']) : c = d := by
  by_cases hupper : 65 ≤ c.val.toNat ∧ c.val.toNat ≤ 90
  · have hall : ∀ n < 26, (Char.ofNat (65 + n)).toLower ∉ ['/', ':'] := by decide
    have hletter := hall (c.val.toNat - 65) (by omega)
    have hc : Char.ofNat (65 + (c.val.toNat - 65)) = c := by
      rw [Nat.add_sub_cancel' hupper.1]
      exact Char.ofNat_toNat c
    rw [hc, h] at hletter
    exact absurd hd hletter
  · exact (dif_neg hupper : c.toLower = c).symm.trans h

theorem mem_lower {d : Char} (hd : d ∈ ['/', ':']) {s : List Char} : d ∈ lower s ↔ d ∈ s := by
  constructor
  · intro h
    obtain ⟨c, hc, hlower⟩ := List.mem_map.mp h
    exact toLower_eq hlower hd ▸ hc
  · intro h
    have hself := List.all_eq_true.mp (by decide : (['/', ':'].all fun d => d.toLower == d) = true) d hd
    exact List.mem_map.mpr ⟨d, h, eq_of_beq hself⟩

theorem isLoopback_congr {s s' : List Char} (h : lower s = lower s') : isLoopback s = isLoopback s' := by
  unfold isLoopback
  rw [h]

def Clash (h h' : Host) : Prop :=
  (isLoopback h.text = true ∧ lower h'.text = LOOPBACK) ∨ (lower h.text = LOOPBACK ∧ isLoopback h'.text = true)

theorem not_isLoopback {s : List Char} (h : lower s = LOOPBACK) : isLoopback s = false := by
  unfold isLoopback
  rw [h]
  decide

theorem SameHost.isLoopback {h h' : Host} (hsame : SameHost h h') : isLoopback h.text = isLoopback h'.text := by
  rcases hsame with ⟨hleft, hright⟩ | hsame
  · rw [hleft, hright]
  · rcases h with text | text <;> rcases h' with text' | text'
    · exact isLoopback_congr hsame
    · exact hsame.elim
    · exact hsame.elim
    · exact isLoopback_congr hsame

theorem Clash.not_same {h h' : Host} (hclash : Clash h h') : ¬ SameHost h h' := by
  intro hsame
  have heq := hsame.isLoopback
  rcases hclash with ⟨hloopback, hnamed⟩ | ⟨hnamed, hloopback⟩
  · rw [hloopback, not_isLoopback hnamed] at heq
    exact Bool.false_ne_true heq.symm
  · rw [hloopback, not_isLoopback hnamed] at heq
    exact Bool.false_ne_true heq

/-- **Hosts** go by one name where they are the same, or clash. -/
theorem canonicalHost_eq_iff {h h' : Host} (hvalid : h.Valid) (hvalid' : h'.Valid) :
    canonicalHost h.text = canonicalHost h'.text ↔ SameHost h h' ∨ Clash h h' := by
  unfold canonicalHost Clash
  rcases hl : isLoopback h.text with _ | _ <;> rcases hr : isLoopback h'.text with _ | _
  · rw [if_neg Bool.false_ne_true, if_neg Bool.false_ne_true]
    have hkind (heq : lower h.text = lower h'.text) : h = .ipv6 h.text ↔ h' = .ipv6 h'.text := by
      rw [← hvalid.text.2.2.2, ← hvalid'.text.2.2.2, ← mem_lower (by decide), heq, mem_lower (by decide)]
    constructor
    · intro heq
      refine .inl (.inr ?_)
      have hkinds := hkind heq
      rcases h with text | text <;> rcases h' with text' | text'
      · exact heq
      · cases hkinds.mpr rfl
      · cases hkinds.mp rfl
      · exact heq
    · rintro ((hboth | hsame) | hclash | hclash)
      · exact absurd (hl.symm.trans hboth.1) Bool.false_ne_true
      · rcases h with text | text <;> rcases h' with text' | text'
        · exact hsame
        · exact hsame.elim
        · exact hsame.elim
        · exact hsame
      · exact absurd hclash.1 Bool.false_ne_true
      · exact absurd hclash.2 Bool.false_ne_true
  · rw [if_neg Bool.false_ne_true, if_pos rfl]
    constructor
    · exact fun heq => .inr (.inr ⟨heq, rfl⟩)
    · rintro (hsame | hclash | hclash)
      · exact absurd (hl.symm.trans (hsame.isLoopback.trans hr)) Bool.false_ne_true
      · exact absurd hclash.1 Bool.false_ne_true
      · exact hclash.1
  · rw [if_neg Bool.false_ne_true, if_pos rfl]
    constructor
    · exact fun heq => .inr (.inl ⟨rfl, heq.symm⟩)
    · rintro (hsame | hclash | hclash)
      · exact absurd (hr.symm.trans (hsame.isLoopback.symm.trans hl)) Bool.false_ne_true
      · exact hclash.2.symm
      · exact absurd hclash.2 Bool.false_ne_true
  · rw [if_pos rfl]
    exact iff_of_true rfl (.inl (.inl ⟨hl, hr⟩))

theorem trimSlashes_head {s : List Char} (h : s = [] ∨ s.head? = some '/') : trimSlashes s = [] ∨ (trimSlashes s).head? = some '/' := by
  have hprefix : trimSlashes s <+: s := by
    rw [← List.reverse_suffix, trimSlashes, List.reverse_reverse]
    exact List.dropWhile_suffix _
  obtain ⟨rest, hrest⟩ := hprefix
  rcases hcut : trimSlashes s with _ | ⟨c, cut⟩
  · exact .inl rfl
  · rw [hcut] at hrest
    rcases h with rfl | h
    · cases hrest
    · rw [← hrest] at h
      exact .inr h

theorem BaseUrl.Valid.canonical (hu : u.Valid) : ':' ∉ lower u.scheme ∧ '/' ∉ canonicalHost u.host.text := by
  constructor
  · rcases hu.scheme with h | h <;> rw [h] <;> decide
  · unfold canonicalHost
    split
    · decide
    · rw [mem_lower (by decide)]
      exact hu.host.text.1

/-- **Two URLs share an identity** where they agree on scheme, host, port and path, and otherwise only if one host is this machine and the other is
named `loopback`. -/
theorem parse_eq_iff (hu : u.Valid) (hv : v.Valid) :
    (parse u.text = parse v.text ↔ Agree u v) ↔ ¬ (Otherwise u v ∧ Clash u.host v.host) := by
  have hparse : parse u.text = parse v.text ↔ Otherwise u v ∧ (SameHost u.host v.host ∨ Clash u.host v.host) := by
    rw [parse_text hu, parse_text hv, BackendId.mk.injEq, String.ofList_inj, ← canonicalHost_eq_iff hu.host hv.host]
    obtain ⟨hscheme, hhost⟩ := hu.canonical
    obtain ⟨hscheme', hhost'⟩ := hv.canonical
    constructor
    · intro heq
      obtain ⟨hs, hh, hp, hpath⟩ := identity_inj hscheme hscheme' hhost hhost' (trimSlashes_head hu.path) (trimSlashes_head hv.path) heq
      exact ⟨⟨hs, hp, hpath⟩, hh⟩
    · rintro ⟨⟨hs, hp, hpath⟩, hh⟩
      rw [hs, hp, hpath, hh]
  have hexcludes : Clash u.host v.host → ¬ SameHost u.host v.host := Clash.not_same
  rw [hparse]
  unfold Agree
  tauto

end

/-! ## Two servers -/

def bare : BaseUrl := ⟨HTTP, none, .ipv6 ['2', ':', ':', '8'], none, ['/', 'v', '1']⟩

def ported : BaseUrl := ⟨HTTP, some ['m', 'e'], .ipv6 ['2', ':', ':'], some ['8'], ['/', 'v', '1', '/']⟩

theorem bare_valid : bare.Valid where
  scheme := .inl (by decide)
  userinfo info h := by cases h
  host := ⟨by decide, fun c hc => by
    have hall := List.all_eq_true.mp (by decide : (['2', ':', ':', '8'].all fun c => (toDigit 16 c).isSome || c == ':') = true) c hc
    simp only [Bool.or_eq_true, beq_iff_eq] at hall
    exact hall.imp_right .inl⟩
  port digits h := by cases h
  path := .inr rfl
  last c h := by cases h; decide

theorem ported_valid : ported.Valid where
  scheme := .inl (by decide)
  userinfo info h := by cases h; decide
  host := ⟨by decide, fun c hc => by
    have hall := List.all_eq_true.mp (by decide : (['2', ':', ':'].all fun c => (toDigit 16 c).isSome || c == ':') = true) c hc
    simp only [Bool.or_eq_true, beq_iff_eq] at hall
    exact hall.imp_right .inl⟩
  port digits h := by
    cases h
    exact ⟨by decide, List.all_eq_true.mp (by decide), by decide⟩
  path := .inr rfl
  last c h := by cases h; decide

theorem parse_eq_iff_ported : (parse bare.text = parse ported.text ↔ Agree bare ported) ↔ ¬ (Otherwise bare ported ∧ Clash bare.host ported.host) :=
  parse_eq_iff bare_valid ported_valid

def server (name : List Char) : BaseUrl := ⟨HTTP, none, .named name, some ['1', '2', '3', '4'], []⟩

theorem server_valid {name : List Char} (hne : name ≠ [])
    (h : (name.all fun c => !Sse.isWhitespace c && c != ':' && c != '/' && c != '@' && c != '[' && c != ']') = true) : (server name).Valid where
  scheme := .inl rfl
  userinfo info h := by cases h
  host := ⟨hne, fun c hc => by
    have hchar := List.all_eq_true.mp h c hc
    simp only [Bool.and_eq_true, Bool.not_eq_true', bne_iff_ne] at hchar
    obtain ⟨⟨⟨⟨⟨hblank, hcolon⟩, hslash⟩, hat⟩, hopen⟩, hclose⟩ := hchar
    exact ⟨hblank, hcolon, hslash, hat, hopen, hclose⟩⟩
  port digits h := by
    cases h
    exact ⟨by decide, List.all_eq_true.mp (by decide), by decide⟩
  path := .inl rfl
  last c h := by cases h

/-- **A server of the network** that is named `loopback` shares the identity of this machine's. -/
theorem loopback_shared : ¬ ∀ u v : BaseUrl, u.Valid → v.Valid → (parse u.text = parse v.text ↔ Agree u v) := by
  intro h
  have hshared := (h (server LOOPBACK) (server LOCALHOST) (server_valid (by decide) (by decide)) (server_valid (by decide) (by decide))).mp
    (by decide +kernel)
  rcases hshared.2 with ⟨hloopback, -⟩ | hnamed
  · exact absurd hloopback (by decide)
  · exact absurd (show lower LOOPBACK = lower LOCALHOST from hnamed) (by decide)

end Cuca.Services.BackendId
