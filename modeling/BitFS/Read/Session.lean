import BitFS.Library.Transition
import BitFS.Tree.Directory

/-! # Concurrent `FS::read` over a libtorrent session

Any number of threads run `FS::read` on one session. A step of a thread is one
libtorrent call or one access under `fsmtx`; between steps libtorrent finishes
pieces, answers `read_piece` requests and posts alerts as it likes. The
control points follow `FS.cpp` statement by statement.
-/

namespace BitFS.Read

open MachineInt Memory BitFS.Tree

/-- The libtorrent calls of FS.cpp that take a piece index. -/
inductive LtCall where
  | have_piece (piece : Int)
  | piece_priority (piece priority : Int)
  | read_piece (piece : Int)
  deriving DecidableEq

def LtCall.piece : LtCall → Int
  | have_piece p => p
  | piece_priority p _ => p
  | read_piece p => p

/-- An alert in the session queue. A failed `read_piece_alert` has its error
code set, a null buffer and size 0; `size` is the length of `buffer`. -/
inductive Alert where
  | read_piece_alert (piece : Int) (failed : Bool) (buffer : List UInt8)
  | other
  deriving DecidableEq

/-- The state the threads share: libtorrent's own, `piece_buffer_map` and `fsmtx`.
`calls` is the history of the calls with a piece index. -/
structure Session (ι : Type) where
  downloaded : Finset Int
  priority : Int → Int
  requests : List Int
  alerts : List Alert
  piece_buffer_map : Int → Option (List UInt8)
  fsmtx : Option ι
  calls : List LtCall

namespace Session

variable {ι : Type} (sh : Session ι)

def havePiece (p : Int) : Session ι := { sh with calls := .have_piece p :: sh.calls }

def piecePriority (p prio : Int) : Session ι :=
  { sh with
    priority := Function.update sh.priority p prio
    calls := .piece_priority p prio :: sh.calls }

def readPiece (p : Int) : Session ι :=
  { sh with requests := sh.requests ++ [p], calls := .read_piece p :: sh.calls }

/-- The loop body of `get_piece_buffers`: every `read_piece_alert` is copied,
whether it reports a failure or not. -/
def storeAlert (m : Int → Option (List UInt8)) : Alert → Int → Option (List UInt8)
  | .read_piece_alert piece _ buffer => Function.update m piece (some buffer)
  | .other => m

/-- Pops the whole queue into the map. Its callers hold `fsmtx`, and nothing
else pops alerts or touches the map, so it is one step. -/
def getPieceBuffers : Session ι :=
  { sh with
    alerts := []
    piece_buffer_map := sh.alerts.foldl storeAlert sh.piece_buffer_map }

/-- The last loop of `init_bitfs`: priority 0 for the pieces from 10 on. -/
def initPriorities (numPieces : Nat) : Session ι :=
  (List.range' 10 (numPieces - 10)).foldl (fun sh (i : Nat) => sh.piecePriority i 0) sh

end Session

/-- Where a thread stands in `FS::read`. -/
inductive Pc where
  | entry
  /-- test of the first loop, `map_file` and `have_piece` -/
  | prioHead
  | prioSelf
  | prioPrev
  | prioNext
  | prioAdvance
  | lock
  /-- the loop over `required_pieces` -/
  | sweep (todo : List Int)
  | sweepRead (p : Int) (todo : List Int)
  /-- test of the second loop and `map_file` -/
  | copyHead
  /-- the first `have_piece` of `wait_for_piece_download` -/
  | waitTest
  /-- `hve_piece = have_piece(piece)` -/
  | waitHave
  | waitPop
  | bufTest
  | bufRequest
  /-- inside the `has_buff` loop -/
  | bufPop
  | bufFind
  | copy
  | unlock
  | done (ret : Int)
  /-- The behaviour is undefined: `int` overflow in a cursor or a copy out of bounds. The model
  follows the thread no further; the program may go on with whatever it has read. -/
  | crashed
  deriving DecidableEq

/-- The arguments and the locals of one activation of `FS::read`. `required_count` has no
initialiser: a call begins with whatever its place in the stack holds. -/
structure Frame where
  filepath : Str
  size : Nat
  offset : Nat
  file_index : Int
  file_total_size : Int
  pr : PeerRequest
  piece_size : Int
  temp_buf : List UInt8
  buf : List UInt8
  curr_offset : Int
  remaining_size : Int
  read_ptr : Int
  required_pieces : Finset Int
  required_count : Int

namespace Frame

variable (fr : Frame)

/-- `std::min(size, file_total_size - offset)`. -/
def amount : Option Int :=
  (checked32 (fr.file_total_size - toInt32 fr.offset)).map fun avail =>
    min (toInt32 fr.size) avail

/-- The assignments before either loop. -/
def restart : Option Frame := do
  let n ← fr.amount
  pure { fr with curr_offset := toInt32 fr.offset, remaining_size := n }

/-- `std::min(piece_size - pr.start, remaining_size)`. -/
def readSize : Option Int :=
  (checked32 (fr.piece_size - fr.pr.start)).map fun left => min left fr.remaining_size

/-- `curr_offset += n; remaining_size -= n;`. -/
def advance (n : Int) : Option Frame := do
  let curr ← checked32 (fr.curr_offset + n)
  let rem ← checked32 (fr.remaining_size - n)
  pure { fr with curr_offset := curr, remaining_size := rem }

/-- The end of a round of the first loop. -/
def skipPiece : Option Frame := do
  let n ← fr.readSize
  fr.advance n

/-- The two copies and the end of a round of the second loop. -/
def copyPiece (src : List UInt8) : Option Frame := do
  let temp ← memcpy fr.temp_buf 0 src 0 fr.piece_size
  let n ← fr.readSize
  let out ← memcpy fr.buf fr.read_ptr temp fr.pr.start n
  let fr' ← fr.advance n
  let ptr ← checked32 (fr.read_ptr + n)
  pure { fr' with temp_buf := temp, buf := out, read_ptr := ptr }

variable {t : Torrent} (lt : TorrentInfo t)

/-- `pr = ti->map_file(...); piece_size = ti->piece_size(pr.piece);`. -/
def mapFile : Frame :=
  { fr with
    pr := lt.map_file fr.file_index fr.curr_offset fr.remaining_size
    piece_size := lt.piece_size (lt.map_file fr.file_index fr.curr_offset fr.remaining_size).piece }

/-- `required_pieces[pr.piece] = false; required_count++;`. Nothing is done with the count, so it
is kept here as an exact number: the increment overflows where it leaves the range of an `int`. -/
def requirePiece : Frame :=
  { fr with
    required_pieces := insert fr.pr.piece fr.required_pieces
    required_count := fr.required_count + 1 }

/-- The declarations of `read` up to the end-of-file test. -/
def start : Frame :=
  { fr with
    file_index := getFileIndex t.files fr.filepath
    file_total_size := getFileSize lt.toFileStorage (getFileIndex t.files fr.filepath)
    read_ptr := 0
    required_pieces := ∅ }

end Frame

/-- A thread: its activation and where it stands. -/
structure Reader where
  frame : Frame
  pc : Pc

namespace Reader

/-- Goes on at `pc`, unless the behaviour is undefined. -/
def orCrash (fr : Frame) (next : Option Frame) (pc : Pc) : Reader :=
  match next with
  | some fr' => ⟨fr', pc⟩
  | none => ⟨fr, .crashed⟩

variable {t : Torrent} (lt : TorrentInfo t) {ι : Type}

/-- The next step of thread `me`. A thread at `lock` stays there while `fsmtx` is held. -/
def step (me : ι) (sh : Session ι) : Reader → Session ι × Reader
  | ⟨fr, .entry⟩ =>
      if (fr.offset : Int) ≥ (fr.start lt).file_total_size then (sh, ⟨fr.start lt, .done 0⟩)
      else (sh, orCrash fr (fr.start lt).restart .prioHead)
  | ⟨fr, .prioHead⟩ =>
      if fr.remaining_size > 0 then
        let fr' := fr.mapFile lt
        if fr'.pr.piece ∈ sh.downloaded then (sh.havePiece fr'.pr.piece, ⟨fr', .prioAdvance⟩)
        else
          (sh.havePiece fr'.pr.piece, ⟨fr'.requirePiece, .prioSelf⟩)
      else (sh, ⟨fr, .lock⟩)
  | ⟨fr, .prioSelf⟩ => (sh.piecePriority fr.pr.piece 7, ⟨fr, .prioPrev⟩)
  | ⟨fr, .prioPrev⟩ =>
      (if fr.pr.piece > 1 then sh.piecePriority (fr.pr.piece - 1) 1 else sh, ⟨fr, .prioNext⟩)
  | ⟨fr, .prioNext⟩ =>
      (if fr.pr.piece < t.numPieces - 1 then sh.piecePriority (fr.pr.piece + 1) 7 else sh,
        ⟨fr, .prioAdvance⟩)
  | ⟨fr, .prioAdvance⟩ => (sh, orCrash fr fr.skipPiece .prioHead)
  | ⟨fr, .lock⟩ =>
      match sh.fsmtx with
      | none => ({ sh with fsmtx := some me }, ⟨fr, .sweep fr.required_pieces.sort⟩)
      | some _ => (sh, ⟨fr, .lock⟩)
  | ⟨fr, .sweep []⟩ => (sh, orCrash fr fr.restart .copyHead)
  | ⟨fr, .sweep (p :: todo)⟩ =>
      (sh.havePiece p, ⟨fr, if p ∈ sh.downloaded then .sweepRead p todo else .sweep todo⟩)
  | ⟨fr, .sweepRead p todo⟩ => (sh.readPiece p, ⟨fr, .sweep todo⟩)
  | ⟨fr, .copyHead⟩ =>
      if fr.remaining_size > 0 then (sh, ⟨fr.mapFile lt, .waitTest⟩) else (sh, ⟨fr, .unlock⟩)
  | ⟨fr, .waitTest⟩ =>
      (sh.havePiece fr.pr.piece,
        ⟨fr, if fr.pr.piece ∈ sh.downloaded then .bufTest else .waitHave⟩)
  | ⟨fr, .waitHave⟩ =>
      (sh.havePiece fr.pr.piece,
        ⟨fr, if fr.pr.piece ∈ sh.downloaded then .bufTest else .waitPop⟩)
  | ⟨fr, .waitPop⟩ => (sh.getPieceBuffers, ⟨fr, .waitHave⟩)
  | ⟨fr, .bufTest⟩ =>
      (sh, ⟨fr, if (sh.piece_buffer_map fr.pr.piece).isSome then .copy else .bufRequest⟩)
  | ⟨fr, .bufRequest⟩ => (sh.readPiece fr.pr.piece, ⟨fr, .bufPop⟩)
  | ⟨fr, .bufPop⟩ => (sh.getPieceBuffers, ⟨fr, .bufFind⟩)
  | ⟨fr, .bufFind⟩ =>
      (sh, ⟨fr, if (sh.piece_buffer_map fr.pr.piece).isSome then .copy else .bufPop⟩)
  | ⟨fr, .copy⟩ =>
      (sh, orCrash fr ((sh.piece_buffer_map fr.pr.piece).bind fr.copyPiece) .copyHead)
  | ⟨fr, .unlock⟩ => ({ sh with fsmtx := none }, ⟨fr, .done fr.read_ptr⟩)
  | ⟨fr, .done ret⟩ => (sh, ⟨fr, .done ret⟩)
  | ⟨fr, .crashed⟩ => (sh, ⟨fr, .crashed⟩)

end Reader

/-- One step of the whole system. -/
inductive Action (ι : Type) where
  /-- the thread takes its next step -/
  | reader (r : ι)
  /-- libtorrent finishes downloading a piece -/
  | complete (p : Nat)
  /-- libtorrent answers the `k`-th outstanding `read_piece` -/
  | answer (k : Nat) (failed : Bool)
  /-- libtorrent posts any other alert -/
  | post

/-- A session and the threads reading from it. -/
structure Sys (ι : Type) where
  session : Session ι
  readers : ι → Reader

namespace Sys

variable {t : Torrent} (lt : TorrentInfo t) {ι : Type} [DecidableEq ι]

/-- The alert that answers a request for piece `p`. -/
def answerAlert (t : Torrent) (p : Int) (failed : Bool) : Alert :=
  .read_piece_alert p failed (if failed then [] else t.pieceBytes p.toNat)

def step (s : Sys ι) : Action ι → Sys ι
  | .reader r =>
      { session := ((s.readers r).step lt r s.session).1
        readers := Function.update s.readers r ((s.readers r).step lt r s.session).2 }
  | .complete p =>
      if p < t.numPieces then
        { s with session := { s.session with downloaded := insert (p : Int) s.session.downloaded } }
      else s
  | .answer k failed =>
      match s.session.requests[k]? with
      | none => s
      | some p =>
          { s with
            session := { s.session with
              requests := s.session.requests.eraseIdx k
              alerts := s.session.alerts ++ [answerAlert t p failed] } }
  | .post => { s with session := { s.session with alerts := s.session.alerts ++ [.other] } }

end Sys

end BitFS.Read
