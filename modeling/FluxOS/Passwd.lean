import FluxOS.Cstdlib
import FluxOS.UserMemoryOps
import Mathlib.Data.List.TakeDrop

/-! `getpwnam_r` of the user's library, with the `fgets` that it reads lines by and the splitting of a
line in its buffer. -/
namespace FluxOS.Passwd
open Words UserMemoryOps

def colon : Byte := 58#8

def newline : Byte := 10#8

/-- Where a string of the entry is: in the buffer, or somewhere else. -/
inductive Text where
  | inBuffer (i : Nat)
  | elsewhere (text : List Byte)

structure passwd where
  pw_name : Text
  pw_passwd : Text
  pw_uid : Word
  pw_gid : Word
  pw_gecos : Text
  pw_dir : Text
  pw_shell : Text

/-! ## Strings in a buffer -/

/-- The string that begins here and ends in the buffer. -/
def string : List Byte → Option (List Byte)
  | [] => none
  | c :: later => if c = 0#8 then some [] else (string later).map (c :: ·)

def Text.read (buf : List Byte) : Text → Option (List Byte)
  | inBuffer i => string (buf.drop i)
  | elsewhere text => some text

/-- `strchr`: the index, or `NULL`. There is no result where the buffer ends first. -/
def strchr (c : Byte) : List Byte → Option (Option Nat)
  | [] => none
  | first :: later =>
    if first = 0#8 then some none
    else if first = c then some (some 0)
    else (strchr c later).map fun found => found.map (· + 1)

/-- `atoi` of the user's library, which is written as the kernel's. -/
def atoi (text : List Byte) : Word := FluxOS.atoi (text.map fun c => Char.ofNat c.toNat)

/-- `*s = c`. -/
def store (buf : List Byte) (i : Nat) (c : Byte) : Option (List Byte) :=
  if i < buf.length then some (buf.set i c) else none

/-! ## The calls -/

/-- An open file: what it has, and the position in it. -/
structure FILE where
  content : List Byte
  pos : Nat

/-- `if (end != 0) *++end = '\0';` -/
def endLine (s : List Byte) : Option (List Byte) :=
  (strchr newline s).bind fun
    | some i => store s (i + 1) 0#8
    | none => some s

/-- `fgets`: what it returns, which is never `NULL`, with the buffer and the file. -/
def fgets (s : List Byte) (stream : FILE) : Option (Bool × List Byte × FILE) :=
  let bytes := (stream.content.drop stream.pos).take (s.length - 1)
  (endLine (bytes ++ s.drop bytes.length)).map fun s => (true, s, { stream with pos := stream.pos + bytes.length })

/-- The `switch`; behind the seventh field there is an error. -/
def setField (buf : List Byte) (fieldN prevPtr : Nat) (pw_buf : passwd) : Option (Option passwd) :=
  match fieldN with
  | 0 => some (some { pw_buf with pw_name := .inBuffer prevPtr })
  | 1 => some (some { pw_buf with pw_passwd := .inBuffer prevPtr })
  | 2 => (string (buf.drop prevPtr)).map fun text => some { pw_buf with pw_uid := atoi text }
  | 3 => (string (buf.drop prevPtr)).map fun text => some { pw_buf with pw_gid := atoi text }
  | 4 => some (some { pw_buf with pw_gecos := .inBuffer prevPtr })
  | 5 => some (some { pw_buf with pw_dir := .inBuffer prevPtr })
  | 6 => some (some { pw_buf with pw_shell := .inBuffer prevPtr })
  | 7 => some none
  | _ => some (some pw_buf)

/-- So many rounds of the loop in `parsePasswdLine`: what it returns, the line and the entry. -/
def parseLoop : Nat → List Byte → Nat → Nat → Nat → passwd → Option (Int × List Byte × passwd)
  | 0, _, _, _, _, _ => none
  | rounds + 1, line, fPtr, prevPtr, fieldN, pw_buf => do
    let c ← (line)[fPtr]?
    if c = newline ∨ c = 0#8 then return (0, line, pw_buf)
    match ← setField line fieldN prevPtr pw_buf with
    | none => return (-1, line, pw_buf)
    | some pw_buf =>
      let fPtr := fPtr + 1
      let c ← (line)[fPtr]?
      if c = colon then parseLoop rounds (line.set fPtr 0#8) (fPtr + 1) (fPtr + 1) (fieldN + 1) pw_buf
      else parseLoop rounds line fPtr prevPtr fieldN pw_buf

/-- Every round goes on by a byte at least. -/
def parsePasswdLine (line : List Byte) (pw_buf : passwd) : Option (Int × List Byte × passwd) :=
  parseLoop (line.length + 1) line 0 0 0 pw_buf

/-- So many rounds of the loop in `getpwnam_r`: the entry with the buffer that its strings are in, or `NULL`. -/
def searchLoop (name : List Byte) : Nat → passwd → List Byte → FILE → Option (Option (passwd × List Byte))
  | 0, _, _, _ => none
  | rounds + 1, pwd, buf, passwdFile =>
    (fgets buf passwdFile).bind fun (more, line, passwdFile) =>
      if more = false then some none
      else (parsePasswdLine line pwd).bind fun (_, line, pwd) =>
        (pwd.pw_name.read line).bind fun pw_name =>
          if pw_name = name then some (some (pwd, line)) else searchLoop name rounds pwd line passwdFile

/-- `getpwnam_r`, with the file where it can be opened. -/
def getpwnam_r (rounds : Nat) (name : List Byte) (pwd : passwd) (buf : List Byte) (passwdFile : Option (List Byte)) :
    Option (Option (passwd × List Byte)) :=
  match passwdFile with
  | none => some none
  | some content => searchLoop name rounds pwd buf ⟨content, 0⟩

/-! ## What it should do -/

/-- What a field may have in it. -/
def Plain (field : List Byte) : Prop := ∀ c ∈ field, c ≠ colon ∧ c ≠ newline ∧ c ≠ 0#8

instance (field : List Byte) : Decidable (Plain field) := inferInstanceAs (Decidable (∀ c ∈ field, _))

/-- A line of the file. -/
structure Line where
  name : List Byte
  passwd : List Byte
  uid : List Byte
  gid : List Byte
  gecos : List Byte
  dir : List Byte
  shell : List Byte
  plain : Plain name ∧ Plain passwd ∧ Plain uid ∧ Plain gid ∧ Plain gecos ∧ Plain dir ∧ Plain shell
  decimal : ∀ c ∈ uid ++ gid, 48#8 ≤ c ∧ c ≤ 57#8

/-- The fields with the colons between them. -/
def Line.fields (line : Line) : List Byte :=
  line.name ++ colon :: (line.passwd ++ colon :: (line.uid ++ colon :: (line.gid ++ colon :: (line.gecos ++
    colon :: (line.dir ++ colon :: line.shell)))))

def Line.text (line : Line) : List Byte := line.fields ++ [newline]

def file (lines : List Line) : List Byte := lines.flatMap Line.text

/-- The number that a field stands for. -/
def number (field : List Byte) : Word := BitVec.ofNat 32 (Nat.ofDigits 10 (field.map fun c => c.toNat - 48).reverse)

/-- The entry has the fields of the line. -/
structure Describes (line : Line) (pwd : passwd) (buf : List Byte) : Prop where
  name : pwd.pw_name.read buf = some line.name
  passwd : pwd.pw_passwd.read buf = some line.passwd
  uid : pwd.pw_uid = number line.uid
  gid : pwd.pw_gid = number line.gid
  gecos : pwd.pw_gecos.read buf = some line.gecos
  dir : pwd.pw_dir.read buf = some line.dir
  shell : pwd.pw_shell.read buf = some line.shell

/-- A call returns the entry of the first line with the name, or `NULL` if there is none. -/
def Right (lines : List Line) (name : List Byte) (pwd : passwd) (buf : List Byte) : Prop :=
  ∃ rounds result, getpwnam_r rounds name pwd buf (some (file lines)) = some result ∧
    match lines.find? (fun line => line.name = name), result with
    | some line, some (entry, strings) => Describes line entry strings
    | none, none => True
    | _, _ => False

/-- It does so with every buffer that is large enough for any line, whatever was in the entry before. -/
def LooksUp (lines : List Line) (name : List Byte) : Prop :=
  ∀ pwd buf, (∀ line ∈ lines, line.text.length < buf.length) → Right lines name pwd buf

/-! ## The end of the first line -/

theorem string_append {text : List Byte} (nonzero : 0#8 ∉ text) (rest : List Byte) :
    string (text ++ 0#8 :: rest) = some text := by
  induction text with
  | nil => rfl
  | cons c later ih =>
    rw [List.cons_append, string, if_neg (List.ne_of_not_mem_cons nonzero).symm, ih (List.not_mem_of_not_mem_cons nonzero)]
    rfl

theorem strchr_append {c : Byte} {text : List Byte} (absent : c ∉ text) (nonzero : 0#8 ∉ text) (other : c ≠ 0#8)
    (rest : List Byte) : strchr c (text ++ c :: rest) = some (some text.length) := by
  induction text with
  | nil => rw [List.nil_append, strchr, if_neg other, if_pos rfl, List.length_nil]
  | cons first later ih =>
    rw [List.cons_append, strchr, if_neg (List.ne_of_not_mem_cons nonzero).symm,
      if_neg (List.ne_of_not_mem_cons absent).symm, ih (List.not_mem_of_not_mem_cons absent)
      (List.not_mem_of_not_mem_cons nonzero)]
    rfl

/-- What is found is the first of its kind. -/
theorem strchr_first {c : Byte} {s : List Byte} {i : Nat} (found : strchr c s = some (some i)) :
    s[i]? = some c ∧ ∀ j < i, s[j]? ≠ some c := by
  induction s generalizing i with
  | nil => cases found
  | cons first later ih =>
    rw [strchr] at found
    split at found
    · cases found
    · split at found
      · rename_i same
        cases found
        exact ⟨by rw [same]; rfl, fun j below => absurd below (Nat.not_lt_zero j)⟩
      · rename_i other
        obtain ⟨below, further, shifted⟩ := Option.map_eq_some_iff.mp found
        cases below with
        | none => cases shifted
        | some k =>
          cases shifted
          obtain ⟨there, before⟩ := ih further
          refine ⟨there, fun j less => ?_⟩
          cases j with
          | zero => simpa using other
          | succ j => exact before j (Nat.lt_of_succ_lt_succ less)

/-- A buffer that has the first line, with some of its colons replaced by zeros, and a zero behind its end. -/
structure Cut (body buf : List Byte) : Prop where
  last : buf[body.length]? = some newline
  ended : buf[body.length + 1]? = some 0#8
  before : ∀ j < body.length, buf[j]? = body[j]? ∨ (body[j]? = some colon ∧ buf[j]? = some 0#8)

/-- A line with the colons of seven fields. -/
structure Body (body : List Byte) : Prop where
  no_newline : newline ∉ body
  nonzero : 0#8 ∉ body
  colons : body.count colon = 6

/-- A string of the entry that cannot be a field: it has the end of a line in it. -/
def Broken (body : List Byte) : Text → Prop
  | .elsewhere text => newline ∈ text
  | .inBuffer i => i ≤ body.length ∧ colon ∉ body.drop i

variable {body buf line : List Byte}

theorem Broken.read (cut : Cut body buf) (fields : Body body) {text : Text} (broken : Broken body text) :
    ∃ string, text.read buf = some string ∧ newline ∈ string := by
  cases text with
  | elsewhere text => exact ⟨text, rfl, broken⟩
  | inBuffer i =>
    obtain ⟨inside, uncut⟩ := broken
    have rest : buf.drop i = (body.drop i ++ [newline]) ++ 0#8 :: buf.drop (body.length + 2) := by
      apply List.ext_getElem?
      intro j
      have length : (body.drop i ++ [newline]).length = body.length - i + 1 := by simp
      rw [List.getElem?_drop]
      by_cases early : i + j < body.length
      · rw [List.getElem?_append_left (by omega), List.getElem?_append_left (by rw [List.length_drop]; omega),
          List.getElem?_drop]
        refine (cut.before (i + j) early).resolve_right fun replaced => uncut ?_
        exact List.mem_of_getElem? (by rw [List.getElem?_drop]; exact replaced.1)
      · by_cases here : i + j = body.length
        · rw [here, cut.last, List.getElem?_append_left (by omega), List.getElem?_append_right (by rw [List.length_drop]; omega),
            List.length_drop, show j - (body.length - i) = 0 by omega]
          rfl
        · rw [List.getElem?_append_right (by omega), length]
          by_cases next : i + j = body.length + 1
          · rw [next, cut.ended, show j - (body.length - i + 1) = 0 by omega]
            rfl
          · rw [List.getElem?_cons, if_neg (by omega), List.getElem?_drop]
            congr 1
            omega
    refine ⟨body.drop i ++ [newline], ?_, by simp⟩
    rw [Text.read, rest]
    refine string_append ?_ _
    rw [List.mem_append, List.mem_singleton]
    rintro (zero | zero)
    · exact fields.nonzero (List.mem_of_mem_drop zero)
    · exact absurd zero (by decide)

/-- The `switch` only sets the shell at the seventh field. -/
theorem setField_shell {fieldN prevPtr : Nat} {before after : passwd}
    (set : setField buf fieldN prevPtr before = some (some after)) :
    after.pw_shell = before.pw_shell ∨ (fieldN = 6 ∧ after.pw_shell = .inBuffer prevPtr) := by
  unfold setField at set
  split at set
  case h_7 =>
    cases set
    exact .inr ⟨rfl, rfl⟩
  case h_3 | h_4 =>
    obtain ⟨text, -, same⟩ := Option.map_eq_some_iff.mp set
    cases same
    exact .inl rfl
  case h_8 => cases set
  all_goals
    cases set
    exact .inl rfl

/-- Behind six colons there is none. -/
theorem Body.no_colon (fields : Body body) {i : Nat} (all : 6 ≤ (body.take i).count colon) : colon ∉ body.drop i := by
  have total := fields.colons
  rw [← List.take_append_drop i body, List.count_append] at total
  exact List.count_eq_zero.mp (by omega)

/-- A colon is replaced. -/
theorem Cut.replace (cut : Cut body line) {i : Nat} (inside : i < body.length) (found : (line)[i]? = some colon) :
    Cut body (line.set i 0#8) ∧ body[i]? = some colon := by
  have original : body[i]? = some colon := by
    rcases cut.before i inside with same | ⟨-, zero⟩
    · rw [← same, found]
    · rw [zero] at found
      exact absurd found (by decide)
  have here : i < line.length := (List.getElem?_eq_some_iff.mp found).1
  refine ⟨⟨?_, ?_, fun j less => ?_⟩, original⟩
  · rw [List.getElem?_set_ne (by omega)]
    exact cut.last
  · rw [List.getElem?_set_ne (by omega)]
    exact cut.ended
  · by_cases same : i = j
    · subst same
      exact .inr ⟨original, List.getElem?_set_self here⟩
    · rw [List.getElem?_set_ne same]
      exact cut.before j less

/-- Splitting a line keeps its end, and leaves no shell that is a field. -/
theorem parseLoop_cut (fields : Body body) {rounds fPtr prevPtr fieldN : Nat} {pwd entry : passwd} {r : Int} {line' : List Byte}
    (cut : Cut body line) (broken : Broken body pwd.pw_shell) (inside : fPtr ≤ body.length) (behind : prevPtr ≤ fPtr)
    (count : fieldN ≤ (body.take prevPtr).count colon)
    (parsed : parseLoop rounds line fPtr prevPtr fieldN pwd = some (r, line', entry)) :
    Cut body line' ∧ Broken body entry.pw_shell := by
  induction rounds generalizing line fPtr prevPtr fieldN pwd with
  | zero => cases parsed
  | succ rounds ih =>
    unfold parseLoop at parsed
    obtain ⟨c, here, parsed⟩ := Option.bind_eq_some_iff.mp parsed
    split at parsed
    · cases parsed
      exact ⟨cut, broken⟩
    · rename_i more
      have further : fPtr < body.length := by
        refine Nat.lt_of_le_of_ne inside fun same => ?_
        rw [same, cut.last] at here
        cases here
        exact more (.inl rfl)
      obtain ⟨set, field, parsed⟩ := Option.bind_eq_some_iff.mp parsed
      cases set with
      | none =>
        cases parsed
        exact ⟨cut, broken⟩
      | some pw_buf =>
        have shell : Broken body pw_buf.pw_shell := by
          rcases setField_shell field with same | ⟨seventh, new⟩
          · rwa [same]
          · rw [new]
            exact ⟨by omega, fields.no_colon (seventh ▸ count)⟩
        obtain ⟨next, found, parsed⟩ := Option.bind_eq_some_iff.mp parsed
        split at parsed
        · rename_i separator
          subst separator
          have within : fPtr + 1 < body.length := by
            refine Nat.lt_of_le_of_ne further fun same => ?_
            rw [same, cut.last] at found
            exact absurd found (by decide)
          obtain ⟨replaced, original⟩ := cut.replace within found
          refine ih replaced shell (by omega) (Nat.le_refl _) ?_ parsed
          have split : body.take (fPtr + 2) = body.take (fPtr + 1) ++ [colon] := by
            rw [List.take_add_one, original]
            rfl
          have fewer := (List.take_prefix_take_left (l := body) (show prevPtr ≤ fPtr + 1 by omega)).sublist.count_le colon
          rw [split, List.count_append, List.count_singleton_self]
          omega
        · exact ih cut shell further (by omega) count parsed

/-! ## The calls of `fgets` -/

/-- A zero is put behind the end of the line. -/
theorem Cut.of_line {rest : List Byte} (room : body.length + 1 < (body ++ newline :: rest).length) :
    Cut body ((body ++ newline :: rest).set (body.length + 1) 0#8) := by
  refine ⟨?_, List.getElem?_set_self room, fun j less => .inl ?_⟩
  · rw [List.getElem?_set_ne (by omega), List.getElem?_append_right (Nat.le_refl _), Nat.sub_self]
    rfl
  · rw [List.getElem?_set_ne (by omega), List.getElem?_append_left less]

/-- The first one takes the whole file, and cuts it behind the first line. -/
theorem fgets_first (fields : Body body) {rest : List Byte} (room : (body ++ newline :: rest).length < buf.length)
    {more : Bool} {stream : FILE} (got : fgets buf ⟨body ++ newline :: rest, 0⟩ = some (more, line, stream)) :
    Cut body line ∧ stream.content.length ≤ stream.pos := by
  have all : ((body ++ newline :: rest).drop 0).take (buf.length - 1) = body ++ newline :: rest := by
    rw [List.drop_zero, List.take_of_length_le (by omega)]
  rw [fgets] at got
  simp only [all] at got
  obtain ⟨s, ended, same⟩ := Option.map_eq_some_iff.mp got
  cases same
  refine ⟨?_, Nat.le_add_left _ _⟩
  rw [endLine, List.append_assoc, List.cons_append, strchr_append fields.no_newline fields.nonzero (by decide)] at ended
  simp only [Option.bind_some, store] at ended
  split at ended
  · rename_i inside
    cases ended
    exact Cut.of_line inside
  · cases ended

/-- The others find the end of the file. -/
theorem fgets_later (fields : Body body) (cut : Cut body buf) {stream stream' : FILE} (behind : stream.content.length ≤ stream.pos)
    {more : Bool} (got : fgets buf stream = some (more, line, stream')) :
    Cut body line ∧ stream'.content.length ≤ stream'.pos := by
  have none_left : (stream.content.drop stream.pos).take (buf.length - 1) = [] := by
    rw [List.drop_of_length_le behind, List.take_nil]
  rw [fgets] at got
  simp only [none_left, List.nil_append, List.length_nil, List.drop_zero] at got
  obtain ⟨s, ended, same⟩ := Option.map_eq_some_iff.mp got
  cases same
  refine ⟨?_, behind⟩
  obtain ⟨found, searched, ended⟩ := Option.bind_eq_some_iff.mp ended
  cases found with
  | none =>
    cases ended
    exact cut
  | some i =>
    obtain ⟨there, before⟩ := strchr_first searched
    have here : i = body.length := by
      rcases Nat.lt_trichotomy i body.length with early | here | late
      · rcases cut.before i early with same | ⟨-, zero⟩
        · exact absurd (List.mem_of_getElem? (same ▸ there)) fields.no_newline
        · rw [zero] at there
          exact absurd there (by decide)
      · exact here
      · exact absurd cut.last (before _ late)
    simp only [store] at ended
    split at ended
    · rename_i inside
      cases ended
      subst here
      -- there is a zero already
      have same : buf.set (body.length + 1) 0#8 = buf := by
        have zero : buf[body.length + 1] = 0#8 := (List.getElem?_eq_some_iff.mp cut.ended).2
        calc buf.set (body.length + 1) 0#8 = buf.set (body.length + 1) buf[body.length + 1] := by rw [zero]
          _ = buf := List.set_getElem_self inside
      rwa [same]
    · cases ended

/-! ## The search -/

theorem searchLoop_broken (fields : Body body) {name : List Byte} {rounds : Nat} {pwd : passwd} {stream : FILE}
    (broken : Broken body pwd.pw_shell) (reads : ∀ more line stream', fgets buf stream = some (more, line, stream') →
      Cut body line ∧ stream'.content.length ≤ stream'.pos) {entry : passwd} {strings : List Byte}
    (found : searchLoop name rounds pwd buf stream = some (some (entry, strings))) :
    Cut body strings ∧ Broken body entry.pw_shell := by
  induction rounds generalizing pwd buf stream with
  | zero => cases found
  | succ rounds ih =>
    rw [searchLoop] at found
    obtain ⟨⟨more, line, stream'⟩, got, found⟩ := Option.bind_eq_some_iff.mp found
    obtain ⟨cut, behind⟩ := reads more line stream' got
    dsimp only at found
    split at found
    · cases found
    · obtain ⟨⟨r, line', pwd'⟩, parsed, found⟩ := Option.bind_eq_some_iff.mp found
      obtain ⟨cut', broken'⟩ := parseLoop_cut fields cut broken (Nat.zero_le _) (Nat.le_refl _) (Nat.zero_le _) parsed
      obtain ⟨pw_name, -, found⟩ := Option.bind_eq_some_iff.mp found
      split at found
      · cases found
        exact ⟨cut', broken'⟩
      · exact ih broken' (fun more line stream'' got => fgets_later fields cut' behind got) found

/-- `fgets` does not say that the file has ended. -/
theorem searchLoop_not_null {name : List Byte} {rounds : Nat} {pwd : passwd} {stream : FILE} :
    searchLoop name rounds pwd buf stream ≠ some none := by
  induction rounds generalizing pwd buf stream with
  | zero => simp [searchLoop]
  | succ rounds ih =>
    intro ended
    rw [searchLoop] at ended
    obtain ⟨⟨more, line, stream'⟩, got, ended⟩ := Option.bind_eq_some_iff.mp ended
    obtain ⟨s, -, same⟩ := Option.map_eq_some_iff.mp got
    cases same
    dsimp only at ended
    rw [if_neg (by decide)] at ended
    obtain ⟨⟨r, line', pwd'⟩, parsed, ended⟩ := Option.bind_eq_some_iff.mp ended
    obtain ⟨pw_name, -, ended⟩ := Option.bind_eq_some_iff.mp ended
    split at ended
    · cases ended
    · exact ih ended

theorem Line.body_fields (line : Line) : Body line.fields := by
  obtain ⟨name, passwd, uid, gid, gecos, dir, shell⟩ := line.plain
  have free {field : List Byte} (plain : Plain field) : newline ∉ field ∧ 0#8 ∉ field ∧ field.count colon = 0 :=
    ⟨fun mem => (plain _ mem).2.1 rfl, fun mem => (plain _ mem).2.2 rfl,
      List.count_eq_zero.mpr fun mem => (plain _ mem).1 rfl⟩
  have apart : newline ≠ colon ∧ 0#8 ≠ colon := by decide
  refine ⟨?_, ?_, ?_⟩
  · simp [fields, (free name).1, (free passwd).1, (free uid).1, (free gid).1, (free gecos).1, (free dir).1, (free shell).1, apart.1]
  · simp [fields, (free name).2.1, (free passwd).2.1, (free uid).2.1, (free gid).2.1, (free gecos).2.1, (free dir).2.1,
      (free shell).2.1, apart.2]
  · simp [fields, (free name).2.2, (free passwd).2.2, (free uid).2.2, (free gid).2.2, (free gecos).2.2, (free dir).2.2,
      (free shell).2.2]

/-- With a buffer that takes the whole file no call returns what it should, if the shell in the entry was no field. -/
theorem not_right_of_room (lines : List Line) (name : List Byte) {pwd : passwd} {buf : List Byte}
    (room : (file lines).length < buf.length) {text : List Byte} (stale : pwd.pw_shell = .elsewhere text)
    (broken : newline ∈ text) : ¬Right lines name pwd buf := by
  rintro ⟨rounds, result, returned, right⟩
  rw [getpwnam_r] at returned
  cases result with
  | none => exact searchLoop_not_null returned
  | some result =>
    obtain ⟨entry, strings⟩ := result
    cases first : lines.find? (fun line => line.name = name) with
    | none =>
      rw [first] at right
      exact right
    | some line =>
      rw [first] at right
      cases lines with
      | nil => cases first
      | cons head rest =>
        have content : file (head :: rest) = head.fields ++ newline :: file rest := by
          rw [file, List.flatMap_cons, Line.text, List.append_assoc, List.singleton_append, ← file]
        rw [content] at room returned
        obtain ⟨cut, shell⟩ := searchLoop_broken head.body_fields (by rw [stale]; exact broken)
          (fun more line stream got => fgets_first head.body_fields room got) returned
        obtain ⟨read, same, ended⟩ := shell.read cut head.body_fields
        rw [right.shell] at same
        cases same
        exact (line.plain.2.2.2.2.2.2 newline ended).2.1 rfl

/-- There is no file and no name for which every call returns what it should. -/
theorem never_looks_up (lines : List Line) (name : List Byte) : ¬LooksUp lines name := by
  intro looksUp
  let nothing : Text := .elsewhere []
  let pwd : passwd := ⟨nothing, nothing, 0#32, 0#32, nothing, nothing, .elsewhere [newline]⟩
  have room : (file lines).length < (List.replicate ((file lines).length + 1) 0#8).length := by
    rw [List.length_replicate]
    exact Nat.lt_succ_self _
  refine not_right_of_room lines name room rfl (.head _) (looksUp pwd _ fun line member => ?_)
  have inside : line.text.length ≤ (file lines).length := (List.sublist_flatten_of_mem (List.mem_map_of_mem member)).length_le
  omega

/-- `root:x:0:0:root:/:/sh` -/
def rootLine : Line where
  name := [114#8, 111#8, 111#8, 116#8]
  passwd := [120#8]
  uid := [48#8]
  gid := [48#8]
  gecos := [114#8, 111#8, 111#8, 116#8]
  dir := [47#8]
  shell := [47#8, 115#8, 104#8]
  plain := by decide
  decimal := by decide

def emptyEntry : passwd :=
  ⟨.elsewhere [], .elsewhere [], 0#32, 0#32, .elsewhere [], .elsewhere [], .elsewhere []⟩

/-- The shell that is found has the end of the line in it. -/
theorem root_has_no_shell : ¬Right [rootLine] rootLine.name emptyEntry (List.replicate 64 0#8) := by
  rintro ⟨rounds, result, returned, right⟩
  cases rounds with
  | zero => cases returned
  | succ rounds =>
    have found : (getpwnam_r (rounds + 1) rootLine.name emptyEntry (List.replicate 64 0#8) (some (file [rootLine]))).map
        (fun result => result.map fun (entry, strings) => entry.pw_shell.read strings) =
          some (some (some [47#8, 115#8, 104#8, 10#8])) := by
      rfl
    rw [returned] at found
    cases result with
    | none => cases found
    | some result =>
      have shell := right.shell
      cases found.symm.trans (congrArg (fun read => some (some read)) shell)

end FluxOS.Passwd
