import BitFS.Read.Session

/-! # Concurrent `bitfs_read` over a libtorrent session

The older program bitFS.cpp. Its `bitfs_read` takes `fsmtx` right after the
end-of-file test, raises the download limit and the priorities of its pieces
inside, counts the pieces it finds downloaded, and lowers the limit at the end.
The locals are those of `FS::read` without `required_pieces` and `required_count`,
which nothing touches.
-/

namespace BitFS.Bitfs

open MachineInt Memory BitFS.Tree BitFS.Read

/-- libtorrent, the cache and `fsmtx`, with the torrent's download limit and two fields
of `stats`. -/
structure Session (ι : Type) extends Read.Session ι where
  download_limit : Int
  cache_hit_counter : Int
  piece_download_counter : Int

namespace Session

variable {ι : Type} (sh : Session ι)

/-- A call that leaves the limit and `stats` alone. -/
def on (f : Read.Session ι → Read.Session ι) : Session ι :=
  { sh with toSession := f sh.toSession }

def setDownloadLimit (limit : Int) : Session ι := { sh with download_limit := limit }

/-- `stats.cache_hit_counter += 1; stats.piece_download_counter += 1;`. -/
def countHit : Option (Session ι) := do
  let hits ← checked32 (sh.cache_hit_counter + 1)
  let pieces ← checked32 (sh.piece_download_counter + 1)
  pure { sh with cache_hit_counter := hits, piece_download_counter := pieces }

/-- `stats.cache_hit_counter * 100 / stats.piece_download_counter` in `display_stats`. -/
def cacheHitRate : Option Int := do
  let percent ← checked32 (sh.cache_hit_counter * 100)
  if sh.piece_download_counter = 0 then none
  else pure (percent.tdiv sh.piece_download_counter)

end Session

/-- Where a thread stands in `bitfs_read`. -/
inductive Pc where
  | entry
  | lock
  /-- `set_download_limit(1024 * 1024)` -/
  | limitUp
  /-- test of the first loop and `map_file` -/
  | prioHead
  | prioSelf
  | prioNext
  | prioAdvance
  /-- test of the second loop and `map_file` -/
  | copyHead
  /-- the first `have_piece` of `wait_for_piece_download` -/
  | waitTest
  /-- the piece is there: the two counters -/
  | waitHit
  /-- the piece is not there: `piece_priority(piece, 7)` -/
  | waitPrio
  /-- `hve_piece = have_piece(piece)` -/
  | waitHave
  | waitPop
  | bufTest
  | bufRequest
  /-- inside the `has_buff` loop -/
  | bufPop
  | bufFind
  | copy
  /-- `set_download_limit(1)` -/
  | limitDown
  | unlock
  | done (ret : Int)
  /-- the behaviour is undefined: `int` overflow or a copy out of bounds -/
  | crashed
  deriving DecidableEq

/-- A thread: its activation and where it stands. -/
structure Reader where
  frame : Frame
  pc : Pc

namespace Reader

/-- Goes on at `pc`, unless the behaviour is undefined. -/
def orCrash (fr : Frame) (next : Option Frame) (pc : Pc) : Reader :=
  match next with
  | some fr' => ⟨fr', pc⟩
  | none => ⟨fr, .crashed⟩

variable {t : Torrent} (lt : TorrentInfo t) {ι : Type}

/-- The next step of thread `me`. A thread at `lock` stays there while `fsmtx` is held. -/
def step (me : ι) (sh : Session ι) : Reader → Session ι × Reader
  | ⟨fr, .entry⟩ =>
      if (fr.offset : Int) ≥ (fr.start lt).file_total_size then (sh, ⟨fr.start lt, .done 0⟩)
      else (sh, ⟨fr.start lt, .lock⟩)
  | ⟨fr, .lock⟩ =>
      match sh.fsmtx with
      | none => (sh.on fun s => { s with fsmtx := some me }, ⟨fr, .limitUp⟩)
      | some _ => (sh, ⟨fr, .lock⟩)
  | ⟨fr, .limitUp⟩ => (sh.setDownloadLimit (1024 * 1024), orCrash fr fr.restart .prioHead)
  | ⟨fr, .prioHead⟩ =>
      if fr.remaining_size > 0 then (sh, ⟨fr.mapFile lt, .prioSelf⟩)
      else (sh, orCrash fr fr.restart .copyHead)
  | ⟨fr, .prioSelf⟩ => (sh.on fun s => s.piecePriority fr.pr.piece 7, ⟨fr, .prioNext⟩)
  | ⟨fr, .prioNext⟩ =>
      (if fr.pr.piece < t.numPieces - 1 then sh.on fun s => s.piecePriority (fr.pr.piece + 1) 7
        else sh, ⟨fr, .prioAdvance⟩)
  | ⟨fr, .prioAdvance⟩ => (sh, orCrash fr fr.skipPiece .prioHead)
  | ⟨fr, .copyHead⟩ =>
      if fr.remaining_size > 0 then (sh, ⟨fr.mapFile lt, .waitTest⟩) else (sh, ⟨fr, .limitDown⟩)
  | ⟨fr, .waitTest⟩ =>
      (sh.on fun s => s.havePiece fr.pr.piece,
        ⟨fr, if fr.pr.piece ∈ sh.downloaded then .waitHit else .waitPrio⟩)
  | ⟨fr, .waitHit⟩ =>
      match sh.countHit with
      | some sh' => (sh', ⟨fr, .bufTest⟩)
      | none => (sh, ⟨fr, .crashed⟩)
  | ⟨fr, .waitPrio⟩ => (sh.on fun s => s.piecePriority fr.pr.piece 7, ⟨fr, .waitHave⟩)
  | ⟨fr, .waitHave⟩ =>
      (sh.on fun s => s.havePiece fr.pr.piece,
        ⟨fr, if fr.pr.piece ∈ sh.downloaded then .bufTest else .waitPop⟩)
  | ⟨fr, .waitPop⟩ => (sh.on Read.Session.getPieceBuffers, ⟨fr, .waitHave⟩)
  | ⟨fr, .bufTest⟩ =>
      (sh, ⟨fr, if (sh.piece_buffer_map fr.pr.piece).isSome then .copy else .bufRequest⟩)
  | ⟨fr, .bufRequest⟩ => (sh.on fun s => s.readPiece fr.pr.piece, ⟨fr, .bufPop⟩)
  | ⟨fr, .bufPop⟩ => (sh.on Read.Session.getPieceBuffers, ⟨fr, .bufFind⟩)
  | ⟨fr, .bufFind⟩ =>
      (sh, ⟨fr, if (sh.piece_buffer_map fr.pr.piece).isSome then .copy else .bufPop⟩)
  | ⟨fr, .copy⟩ =>
      (sh, orCrash fr ((sh.piece_buffer_map fr.pr.piece).bind fr.copyPiece) .copyHead)
  | ⟨fr, .limitDown⟩ => (sh.setDownloadLimit 1, ⟨fr, .unlock⟩)
  | ⟨fr, .unlock⟩ => (sh.on fun s => { s with fsmtx := none }, ⟨fr, .done fr.read_ptr⟩)
  | ⟨fr, .done ret⟩ => (sh, ⟨fr, .done ret⟩)
  | ⟨fr, .crashed⟩ => (sh, ⟨fr, .crashed⟩)

end Reader

/-- A session and the threads reading from it. -/
structure Sys (ι : Type) where
  session : Session ι
  readers : ι → Reader

namespace Sys

variable {t : Torrent} (lt : TorrentInfo t) {ι : Type} [DecidableEq ι]

/-- One step of a thread, or of libtorrent as for the readers of FS.cpp. -/
def step (s : Sys ι) : Action ι → Sys ι
  | .reader r =>
      { session := ((s.readers r).step lt r s.session).1
        readers := Function.update s.readers r ((s.readers r).step lt r s.session).2 }
  | .complete p =>
      if p < t.numPieces then
        { s with session := s.session.on fun sh =>
            { sh with downloaded := insert (p : Int) sh.downloaded } }
      else s
  | .answer k failed =>
      match s.session.requests[k]? with
      | none => s
      | some p =>
          { s with session := s.session.on fun sh =>
              { sh with
                requests := sh.requests.eraseIdx k
                alerts := sh.alerts ++ [Read.Sys.answerAlert t p failed] } }
  | .post =>
      { s with session := s.session.on fun sh => { sh with alerts := sh.alerts ++ [.other] } }

/-- The end of `init_bitfs`. -/
def initBitfs (s : Sys ι) : Sys ι := { s with session := s.session.setDownloadLimit 1 }

end Sys

end BitFS.Bitfs
