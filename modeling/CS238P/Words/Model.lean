import CS238P.Avl.Model
import CS238P.Shell.Model

set_option autoImplicit false

/-! # The words program (`p3/main.c`)

The callback `shell_fnc` of the shell and the commands it looks up. The line is a string of an
object that the callback is given to read, but `shell_strtrim` writes to it through a cast. A
command has its argument as a string, since none writes to it, and a failed assertion has no
result.

What is outside the program is an argument: the files, the outcome of the allocations in SCM and
the sizes of the SCM. -/

namespace CS238P.Words

open CObject Avl

/-- A text of the source. -/
def ascii (s : String) : List UInt8 := s.toList.map (fun c => UInt8.ofNat c.toNat)

/-- `%lu`. -/
def lu (n : ℕ) : List UInt8 := ascii (toString n)

/-- What a command finds: the files that can be opened, the allocations of its insertions, one after
    the other, and the sizes of the SCM. -/
structure World where
  fopen : List UInt8 → Option (List UInt8)
  alloc : ℕ → Alloc
  utilized : ℕ
  capacity : ℕ

/-- What a command returns, the tree it leaves and what it prints. -/
structure Outcome where
  ret : ℤ
  avl : State
  out : List UInt8

/-- The argument of `avl_insert` and `avl_exists`: `assert( safe_strlen(item) )`. -/
def toItem (s : List UInt8) : Option Item :=
  if h : (0 : UInt8) ∉ s ∧ s ≠ [] then some ⟨⟨s, h.1⟩, h.2⟩ else none

/-! ## The commands -/

def exists_ (avl : State) (s : List UInt8) : Option Outcome := do
  let item ← toItem s
  let count := avlExists avl item
  some ⟨0, avl, if count = 0 then ascii "'" ++ s ++ ascii "' does not exist\n"
    else ascii "'" ++ s ++ ascii "' x " ++ lu count ++ ascii " exists\n"⟩

def insert (world : World) (avl : State) (s : List UInt8) : Option Outcome := do
  let item ← toItem s
  let r ← avlInsert (world.alloc 0) avl item
  some ⟨0, r.2, if r.1 ≠ 0 then ascii "error: failed to insert '" ++ s ++ ascii "'" else []⟩

/-- `fgets` with room for `n` bytes and a terminator: the bytes it takes, up to the end of a line,
    and those it leaves. -/
def fgets : ℕ → List UInt8 → List UInt8 × List UInt8
  | 0, file => ([], file)
  | _ + 1, [] => ([], [])
  | n + 1, c :: file =>
    if c = 10 then ([c], file)
    else
      let r := fgets n file
      (c :: r.1, r.2)

/-- The loop of `load`, after so many insertions. A turn takes a byte at least, so that the fuel is
    the length of the file. -/
def loadWords (world : World) :
    ℕ → CObject → List UInt8 → ℕ → State → Option (State × List UInt8)
  | 0, _, _, _, avl => some (avl, [])
  | fuel + 1, word, file, calls, avl =>
    let r := fgets (word.bytes.length - 1) file
    if r.1 = [] then some (avl, [])
    else do
      let word ← word.write 0 (r.1 ++ [0])
      let word ← Shell.strtrim word 0
      let s ← word.string 0
      if s ≠ [] then do
        let item ← toItem s
        let i ← avlInsert (world.alloc calls) avl item
        if i.1 ≠ 0 then some (i.2, ascii "error: unable to load '" ++ s ++ ascii "'")
        else loadWords world fuel word r.2 (calls + 1) i.2
      else loadWords world fuel word r.2 calls avl

/-- `word`, of which nothing is read before it was written. -/
def word : CObject := ⟨List.replicate 256 0, []⟩

def load (world : World) (avl : State) (s : List UInt8) : Option Outcome :=
  match world.fopen s with
  | none => some ⟨0, avl, ascii "error: unable to open '" ++ s ++ ascii "' for reading\n"⟩
  | some file => do
    let r ← loadWords world file.length word file 0 avl
    some ⟨0, r.1, r.2⟩

def listWord (out : List UInt8) (word : CString) (count : ℕ) : List UInt8 :=
  out ++ (ascii "'" ++ word.bytes ++ ascii "' x " ++ lu count ++ ascii "\n")

def list (avl : State) : Outcome := ⟨0, avl, avlTraverse avl listWord []⟩

def info (world : World) (avl : State) : Outcome :=
  ⟨0, avl, ascii "\n-- info -- \n" ++
    ascii "  words    : " ++ lu (avlItems avl) ++ ascii " (total)\n" ++
    ascii "  words    : " ++ lu (avlUnique avl) ++ ascii " (unique)\n" ++
    ascii "  utilized : " ++ lu world.utilized ++ ascii " bytes\n" ++
    ascii "  capacity : " ++ lu world.capacity ++ ascii " bytes\n" ++ ascii "\n"⟩

def help (avl : State) : Outcome :=
  ⟨0, avl, ascii "\n-- commands -- \n" ++
    ascii "  quit          : exit the program\n" ++
    ascii "  help          : prints this menu\n" ++
    ascii "  info          : report info\n" ++
    ascii "  list          : list words in sorted order\n" ++
    ascii "  load pathname : load words from file @ 'pathname'\n" ++
    ascii "  insert word   : insert 'word'\n" ++
    ascii "  exists word   : check if 'word' exists\n" ++ ascii "\n"⟩

def quit (avl : State) : Outcome := ⟨1, avl, []⟩

/-! ## `shell_fnc` -/

/-- The function of a command. -/
inductive Fnc where
  | quit
  | help
  | info
  | list
  | load
  | insert
  | exists_
  deriving DecidableEq

def Fnc.call (fnc : Fnc) (world : World) (avl : State) (s : List UInt8) : Option Outcome :=
  match fnc with
  | .quit => some (Words.quit avl)
  | .help => some (Words.help avl)
  | .info => some (Words.info world avl)
  | .list => some (Words.list avl)
  | .load => Words.load world avl s
  | .insert => Words.insert world avl s
  | .exists_ => Words.exists_ avl s

structure Cmd where
  argc : ℕ
  face : List UInt8
  fnc : Fnc
  deriving DecidableEq

/-- `CMDS`. -/
def cmds : List Cmd :=
  [⟨0, ascii "quit", .quit⟩,
   ⟨0, ascii "help", .help⟩,
   ⟨0, ascii "info", .info⟩,
   ⟨0, ascii "list", .list⟩,
   ⟨1, ascii "load", .load⟩,
   ⟨1, ascii "insert", .insert⟩,
   ⟨1, ascii "exists", .exists_⟩]

/-- The loop: the function to be called, if any, and where it left `s`. -/
def dispatch (o : CObject) : List Cmd → ℤ → Option ((Option Fnc × ℤ) × CObject)
  | [], s => some ((none, s), o)
  | c :: cs, s => do
      let d ← o.strncmp c.face s
      if d = 0 then do
        let s := s + c.face.length
        let o ← Shell.strtrim o s
        let len ← o.strlen s
        if (c.argc ≠ 0 ∧ len = 0) ∨ (c.argc = 0 ∧ len ≠ 0) then some ((none, s), o)
        else some ((some c.fnc, s), o)
      else dispatch o cs s

/-- What is behind the loop, and the call in it. -/
def perform (world : World) (avl : State) (s : List UInt8) : Option Fnc → Option Outcome
  | some fnc => fnc.call world avl s
  | none => some ⟨0, avl, ascii "error: bad command/argument (" ++
      (if s ≠ [] then s else ascii "missing argument") ++ ascii ")\n"⟩

def shellFnc (world : World) (avl : State) (o : CObject) (s : ℤ) :
    Option (Outcome × CObject) := do
  let r ← dispatch o cmds s
  let s ← r.2.string r.1.2
  let out ← perform world avl s r.1.1
  some (out, r.2)

end CS238P.Words
