import BitFS.Client.Address
import BitFS.Client.Infohash
import BitFS.Client.Main
import BitFS.Client.Numbers

/-! # From the torrent file to the download

`main` of `bt_client.c`: the torrent file is parsed, the first peer of the list connected to, and
its first piece written to a file. What it prints is left out, but not that it may go on behind
the end of a string.
-/

namespace BitFS.Client

open MachineInt Memory Bencode Decimal Tiling

/-- The fields that the download reads, where all of them were written. -/
def Metainfo.loaded (m : Metainfo) : Option MetainfoInfo := do
  let infohash ← m.infohash
  let piece_length ← m.piece_length
  let file_length ← m.file_length
  let num_pieces ← m.num_pieces
  pure ⟨infohash, piece_length, file_length, num_pieces⟩

/-- `printf("%s")` of a block, and of what stands behind it as far as it can be read: there has to
be a 0 somewhere. -/
def printString (b : Block) (behind : List UInt8) : Option (List UInt8) :=
  cString (b.cells.take b.size.toNat ++ behind)

/-- What the program finds. -/
structure Surroundings where
  /-- the size of the torrent file, and its bytes in the order of the reads -/
  st_size : Nat
  reads : List (List UInt8)
  /-- the memory behind the two strings when they are printed -/
  behindAnnounce : List UInt8
  behindFilename : List UInt8
  peerlist : List UInt8
  /-- what the memory held that `get_peer_list` does not set -/
  ch : Nat → Int
  heap : Nat → UrlBlock
  /-- `peer_tcp_connect`, where it does not fail -/
  connect : List UInt8 → Int → Option (Socket UInt8)
  /-- `/tmp/file.txt` when it is opened, and how much every `write` to it takes -/
  file : Option (List (Option UInt8))
  taken : Nat → Nat

/-- `main`. A field that was never written, also the pointer to a string, leaves its behaviour
open. The port goes through `htons`. -/
def main (sha1 : List UInt8 → List UInt8) (fuel : Nat) (env : Surroundings) :
    Option (Socket UInt8 × Option (List (Option UInt8))) := do
  let metainfo ← (parseMetainfoFile sha1 fuel env.st_size env.reads).toOption
  let announce ← metainfo.announce
  let _ ← printString announce env.behindAnnounce
  let filename ← metainfo.filename
  let _ ← printString filename env.behindFilename
  let m ← metainfo.loaded
  let infoarr ← getPeerList env.ch env.heap env.peerlist
  let (ip, port) ← peerAddress infoarr
  let sock ← env.connect ip (port % 65536)
  (mainDownload sock m env.file env.taken).toOption

/-! ## The metainfo -/

section Metainfo

variable (sha1 : List UInt8 → List UInt8) (t : SingleFile)

/-- A single-file torrent whose numbers fit in an `int`. -/
structure SingleFile.Loadable : Prop where
  noneTwice : t.NoneTwice
  n_fits : t.n ≤ 2147483647
  p_fits : t.p ≤ 2147483647
  bytes_fit : t.bytes.length ≤ 2147483646

/-- It has the two strings that are printed. -/
structure SingleFile.Named : Prop where
  announce : ∃ a, (announceKey, .str a) ∈ t.pre ++ t.post
  name : ∃ f, (nameKey, .str f) ∈ t.info

/-- The metainfo of such a torrent. -/
def SingleFile.metainfo : MetainfoInfo where
  infohash := sha1 (encode (.dict t.info))
  piece_length := t.p
  file_length := t.n
  num_pieces := numPieces t.n t.p

variable {t}

theorem SingleFile.Loadable.sized (ht : t.Loadable) :
    (t.metainfo sha1).Sized t.n.toNat t.p.toNat := by
  have hn := t.n_nonneg
  have hp := t.p_pos
  have hfits := ht.n_fits
  have hfits' := ht.p_fits
  have hn' : ((t.n.toNat : Nat) : Int) = t.n := Int.toNat_of_nonneg hn
  have hp' : ((t.p.toNat : Nat) : Int) = t.p := Int.toNat_of_nonneg (by omega)
  refine ⟨hp'.symm, hn'.symm, ?_, by omega, by omega, by omega⟩
  rw [hn', hp']
  rfl

/-- The fields of the strings are written where there is an entry for them. -/
theorem SingleFile.Named.written (ht : t.Named) {st : ParseState}
    (hfields : st.fields = t.steps.foldl Metainfo.step ParseState.init.fields) :
    (∃ b, st.announce = some b) ∧ ∃ b, st.filename = some b := by
  obtain ⟨a, ha⟩ := ht.announce
  obtain ⟨f, hf⟩ := ht.name
  have hannounce := field_foldl Metainfo.announce Metainfo.store_announce (fun _ => rfl)
    (m := ParseState.init.fields) rfl t.steps
  have hname := field_foldl Metainfo.filename Metainfo.store_filename (fun _ => rfl)
    (m := ParseState.init.fields) rfl t.steps
  have hmem : (announceKey, .str a) ∈ t.pre ++ (t.info ++ t.post) := by
    rw [List.mem_append] at ha
    rw [List.mem_append, List.mem_append]
    exact ha.imp_right Or.inr
  obtain ⟨v, hv⟩ := exists_lastUnder_torrentSteps rfl hmem
  have hmem' : (nameKey, .str f) ∈ t.pre ++ (t.info ++ t.post) :=
    List.mem_append_right _ (List.mem_append_left _ hf)
  obtain ⟨w, hw⟩ := exists_lastUnder_torrentSteps rfl hmem'
  rw [← hfields, SingleFile.steps, hv] at hannounce
  rw [← hfields, SingleFile.steps, hw] at hname
  exact ⟨⟨_, hannounce⟩, ⟨_, hname⟩⟩

/-- The parser gets the metainfo out of the file. -/
theorem SingleFile.Loadable.parses (ht : t.Loadable) {reads : List (List UInt8)}
    (hreads : reads.flatten = t.bytes) :
    ∃ N, ∀ fuel ≥ N, ∃ st, parseMetainfoFile sha1 fuel t.bytes.length reads = .ok st ∧
      st.loaded = some (t.metainfo sha1) ∧
      st.fields = t.steps.foldl Metainfo.step ParseState.init.fields := by
  have hne : t.info ≠ [] := List.ne_nil_of_mem t.length_mem
  obtain ⟨N, hhash⟩ : HashesInfo sha1 t.info t.bytes.length reads :=
    hashesInfo_of_comesLast hne hreads ht.bytes_fit (comesLast_of_alone ht.noneTwice.fits)
  refine ⟨max N (2 * t.bytes.length + 2), fun fuel hfuel => ?_⟩
  obtain ⟨st, hok, hinfohash, -⟩ := hhash fuel (le_of_max_le_left hfuel)
  have hrun := parseMetainfoFile_follows sha1 t.entries hreads ht.bytes_fit
    (le_of_max_le_right hfuel)
  rw [show entrySteps t.entries = some t.steps from entrySteps_torrent ht.noneTwice.fits] at hrun
  obtain ⟨st', hok', hfields⟩ := hrun
  obtain rfl : st = st' := by
    have hsame := hok.symm.trans hok'
    exact Except.ok.inj hsame
  obtain ⟨hlength, hpiece, hpieces⟩ :=
    (lastNumbers_iff hfields).mp (t.lastNumbers ht.noneTwice ht.n_fits ht.p_fits)
  refine ⟨st, hok, ?_, hfields⟩
  simp only [Metainfo.loaded, hinfohash, hlength, hpiece, hpieces]
  rfl

end Metainfo

/-! ## The whole run -/

section Run

variable {sha1 : List UInt8 → List UInt8} {t : SingleFile} {env : Surroundings}

/-- A run that comes to its end has gone through the download. -/
theorem main_ok {fuel : Nat} {st : ParseState} {m : MetainfoInfo} {sock' : Socket UInt8}
    {file' : Option (List (Option UInt8))}
    (hparse : parseMetainfoFile sha1 fuel env.st_size env.reads = .ok st)
    (hloaded : st.loaded = some m) (h : main sha1 fuel env = some (sock', file')) :
    ∃ ip port sock, env.connect ip port = some sock ∧
      mainDownload sock m env.file env.taken = .ok (sock', file') := by
  simp only [main, hparse, hloaded, Except.toOption, Option.bind_eq_bind, Option.bind_some] at h
  obtain ⟨announce, -, h⟩ := Option.bind_eq_some_iff.mp h
  obtain ⟨_, -, h⟩ := Option.bind_eq_some_iff.mp h
  obtain ⟨filename, -, h⟩ := Option.bind_eq_some_iff.mp h
  obtain ⟨_, -, h⟩ := Option.bind_eq_some_iff.mp h
  obtain ⟨infoarr, -, h⟩ := Option.bind_eq_some_iff.mp h
  obtain ⟨⟨ip, port⟩, -, h⟩ := Option.bind_eq_some_iff.mp h
  obtain ⟨sock, hconnect, h⟩ := Option.bind_eq_some_iff.mp h
  refine ⟨ip, port % 65536, sock, hconnect, ?_⟩
  cases hdownload : mainDownload sock m env.file env.taken with
  | error e =>
      rw [hdownload] at h
      cases h
  | ok res =>
      rw [hdownload] at h
      cases h
      rfl

/-- And it does come to it when the strings can be printed, the list gives an address and the
download comes to its end. -/
theorem main_of_download {fuel : Nat} {st : ParseState} {m : MetainfoInfo}
    {announce filename : Block} {infoarr : List (List UInt8)} {ip : List UInt8} {port : Int}
    {sock sock' : Socket UInt8} {file' : Option (List (Option UInt8))}
    (hparse : parseMetainfoFile sha1 fuel env.st_size env.reads = .ok st)
    (hannounce : st.announce = some announce) (hfilename : st.filename = some filename)
    (hbehind : 0 ∈ env.behindAnnounce ∧ 0 ∈ env.behindFilename) (hloaded : st.loaded = some m)
    (hlist : getPeerList env.ch env.heap env.peerlist = some infoarr)
    (haddress : peerAddress infoarr = some (ip, port))
    (hconnect : env.connect ip (port % 65536) = some sock)
    (hdownload : mainDownload sock m env.file env.taken = .ok (sock', file')) :
    main sha1 fuel env = some (sock', file') := by
  have hprint (b : Block) {behind : List UInt8} (hnul : 0 ∈ behind) :
      ∃ s, printString b behind = some s := ⟨_, if_pos (List.mem_append_right _ hnul)⟩
  obtain ⟨s, hs⟩ := hprint announce hbehind.1
  obtain ⟨s', hs'⟩ := hprint filename hbehind.2
  simp only [main, hparse, Except.toOption, hannounce, hs, hfilename, hs', hloaded, hlist, haddress,
    hconnect, hdownload, Option.bind_eq_bind, Option.bind_some]

/-- The run when the download starts at a message boundary and the requests are answered. -/
theorem main_answered (ht : t.Loadable) (hnamed : t.Named) (hsha1 : ∀ s, (sha1 s).length = 20)
    (hsize : env.st_size = t.bytes.length) (hreads : env.reads.flatten = t.bytes)
    (hbehind : 0 ∈ env.behindAnnounce ∧ 0 ∈ env.behindFilename)
    {infoarr : List (List UInt8)} {ip : List UInt8} {port : Int} {sock : Socket UInt8}
    (hlist : getPeerList env.ch env.heap env.peerlist = some infoarr)
    (haddress : peerAddress infoarr = some (ip, port))
    (hconnect : env.connect ip (port % 65536) = some sock) (hflow : sock.Flowing)
    {content : List UInt8} (hcontent : content.length = t.n.toNat) {hs bits rest : List UInt8}
    (hstart : StartsAtBoundary sock (t.metainfo sha1) hs bits)
    (header : Nat × Nat → PieceHeader UInt8)
    (hstream : sock.stream = hs ++ (Message.bitfield bits).encode ++
      (answers header (content.take t.p.toNat) (pieceBlocks t.n.toNat t.p.toNat 0) ++ rest))
    {old : List (Option UInt8)} (hold : env.file = some old) {k : Nat}
    (hk : k = min (env.taken 0) (min t.n.toNat t.p.toNat)) :
    ∃ N, ∀ fuel ≥ N, ∃ sock', main sha1 fuel env =
        some (sock', some ((content.take k).map some ++ old.drop k)) ∧ sock'.stream = rest := by
  obtain ⟨N, hparses⟩ := ht.parses sha1 hreads
  obtain ⟨sock', hdownload, hrest⟩ := mainDownload_answered (ht.sized sha1) (hsha1 _)
    hcontent hflow hstart header hstream old env.taken hk
  refine ⟨N, fun fuel hfuel => ⟨sock', ?_, hrest⟩⟩
  obtain ⟨st, hparse, hloaded, hfields⟩ := hparses fuel hfuel
  obtain ⟨⟨announce, hannounce⟩, filename, hfilename⟩ := hnamed.written hfields
  rw [← hsize] at hparse
  rw [← hold] at hdownload
  exact main_of_download hparse hannounce hfilename hbehind hloaded hlist haddress hconnect
    hdownload

end Run

/-! A torrent of 50000 sevens in pieces of 20000 bytes, and a peer that has them. -/

section Sevens

def sevensTorrent : SingleFile where
  pre := [(announceKey, .str [104])]
  info := [(lengthKey, .int 50000), (nameKey, .str [115]), (pieceLengthKey, .int 20000)]
  post := []
  n := 50000
  p := 20000
  length_mem := List.mem_cons_self
  pieceLength_mem := List.mem_cons_of_mem _ (List.mem_cons_of_mem _ List.mem_cons_self)
  n_nonneg := by decide
  n_le := by decide
  p_pos := by decide
  p_le := by decide

theorem sevensTorrent_named : sevensTorrent.Named :=
  ⟨⟨[104], List.mem_cons_self⟩, ⟨[115], List.mem_cons_of_mem _ List.mem_cons_self⟩⟩

theorem sevensTorrent_noneTwice : sevensTorrent.NoneTwice := by
  have hentries : sevensTorrent.pre ++ (sevensTorrent.info ++ sevensTorrent.post) =
      [(announceKey, .str [104]), (lengthKey, .int 50000), (nameKey, .str [115]),
        (pieceLengthKey, .int 20000)] := rfl
  constructor
  · decide
  all_goals
    rw [hentries]
    intro e he
    simp only [List.mem_cons, List.not_mem_nil, or_false] at he
    rcases he with rfl | rfl | rfl | rfl
  · exact fun hkey => absurd hkey (by decide)
  · exact fun _ => rfl
  · exact fun hkey => absurd hkey (by decide)
  · exact fun hkey => absurd hkey (by decide)
  · exact fun hkey => absurd hkey (by decide)
  · exact fun hkey => absurd hkey (by decide)
  · exact fun hkey => absurd hkey (by decide)
  · exact fun _ => rfl

theorem sevensTorrent_loadable : sevensTorrent.Loadable := by
  refine ⟨sevensTorrent_noneTwice, by decide, by decide, ?_⟩
  simp [SingleFile.bytes, SingleFile.entries, sevensTorrent, encode, encodeDict, encodeStr,
    decimal, digits, infoKey, lengthKey, pieceLengthKey, announceKey, nameKey]

def zeroHash (_ : List UInt8) : List UInt8 := List.replicate 20 0

theorem zeroHash_length (s : List UInt8) : (zeroHash s).length = 20 := rfl

theorem sevensTorrent_count : (sevensTorrent.metainfo zeroHash).num_pieces = (3 : Nat) :=
  threePieces_count

def sevens : List UInt8 := List.replicate 50000 7

theorem sevens_length : sevens.length = 50000 := List.length_replicate

/-- Three segments: the handshake, the bitfield, and the answers to both requests. -/
def sevensPeer : Socket UInt8 :=
  .segments [List.replicate 68 1, (Message.bitfield [224]).encode,
    answers zeroHeader (sevens.take 20000) (pieceBlocks 50000 20000 0)]

theorem sevensPeer_flowing : sevensPeer.Flowing := Socket.segments_flowing _

theorem sevensPeer_stream :
    sevensPeer.stream = List.replicate 68 1 ++ (Message.bitfield [224]).encode ++
      (answers zeroHeader (sevens.take 20000) (pieceBlocks 50000 20000 0) ++ []) := by
  rw [sevensPeer, Socket.segments_stream, List.flatten_cons, List.flatten_cons, List.flatten_cons,
    List.flatten_nil, List.append_assoc]

theorem sevensPeer_boundary : StartsAtBoundary sevensPeer (sevensTorrent.metainfo zeroHash)
    (List.replicate 68 1) [224] := by
  obtain ⟨request, hreq, hlen, -⟩ :=
    handshakeRequest_spec (m := sevensTorrent.metainfo zeroHash) rfl
  have hready : min 68 sevensPeer.ready = 68 := by decide
  have hready' : min (3 / 8 + 6) (sevensPeer.skip 68).ready = 6 := by decide
  rw [startsAtBoundary_iff_reads hreq hlen sevensTorrent_count sevensPeer_flowing rfl
    sevensPeer_stream rfl rfl, hready, hready', List.drop_eq_nil_of_le hlen.le]
  decide

/-- The peer is the one of the line `h:5`, and the file held ones up to a byte behind the first
piece. -/
def sevensSurroundings : Surroundings where
  st_size := sevensTorrent.bytes.length
  reads := [sevensTorrent.bytes]
  behindAnnounce := [0]
  behindFilename := [120, 0]
  peerlist := [104] ++ 58 :: decimal 5 ++ 10 :: []
  ch _ := 0
  heap _ := zeroBlock
  connect _ _ := some sevensPeer
  file := some (List.replicate 20001 (some 1))
  taken _ := 20000

theorem sevensSurroundings_reads : sevensSurroundings.reads.flatten = sevensTorrent.bytes :=
  List.append_nil _

theorem sevensSurroundings_address :
    peerAddress [[104] ++ 58 :: decimal 5 ++ zeroBlock.1.drop 3] = some ([104], 5) := by decide

theorem sevensSurroundings_new (ip : List UInt8) (port : Int) (sock : Socket UInt8)
    (h : sevensSurroundings.connect ip port = some sock) : sock.sent = [] := by
  cases h
  rfl

end Sevens

section Run

variable {sha1 : List UInt8 → List UInt8} {t : SingleFile} {env : Surroundings}

/-- A client that comes to its end has handed to `write` the handshake with the hash of the info
dictionary, the messages that it is unchoked and interested, and requests of at most 16 KiB each
for the bytes of the first piece in order, whatever arrives. A peer reads just that of what went
out, unless a `write` was short: the rest of a buffer is never sent. -/
theorem main_sends (ht : t.Loadable) (hsha1 : ∀ s, (sha1 s).length = 20)
    (hsize : env.st_size = t.bytes.length) (hreads : env.reads.flatten = t.bytes)
    (hnew : ∀ ip port sock, env.connect ip port = some sock → sock.sent = []) :
    ∃ N, ∀ fuel ≥ N, ∀ sock' file', main sha1 fuel env = some (sock', file') →
      ∃ ip port sock blocks, env.connect ip port = some sock ∧
        Tiles 0 blocks (min t.n.toNat t.p.toNat) ∧ (∀ r ∈ blocks, 1 ≤ r.2 ∧ r.2 ≤ 16384) ∧
        sock.Wrote (ownHandshake (sha1 (encode (.dict t.info))) ::
          (ownMessages blocks).map Message.encode) sock' ∧
        (peerReads sock'.delivered = ⟨ownHandshake (sha1 (encode (.dict t.info))),
            (ownMessages blocks).map some, []⟩ ↔ sock'.Complete) := by
  obtain ⟨N, hparses⟩ := ht.parses sha1 hreads
  refine ⟨N, fun fuel hfuel sock' file' hrun => ?_⟩
  obtain ⟨st, hparse, hloaded, -⟩ := hparses fuel hfuel
  rw [← hsize] at hparse
  obtain ⟨ip, port, sock, hconnect, hdownload⟩ := main_ok hparse hloaded hrun
  have hwrote := mainDownload_sends (ht.sized sha1) (hsha1 _) hdownload
  have hfirst : sizeOf t.n.toNat t.p.toNat 0 = min t.n.toNat t.p.toNat := by
    rw [sizeOf, Nat.mul_zero, Nat.sub_zero]
  refine ⟨ip, port, sock, pieceBlocks t.n.toNat t.p.toNat 0, hconnect,
    hfirst ▸ pieceBlocks_tiles t.n.toNat t.p.toNat 0,
    fun r hr => ⟨(blocksFrom_bounds hr).1, (blocksFrom_bounds hr).2.1⟩, hwrote, ?_⟩
  apply peerReads_delivered (hsha1 _)
  rw [hwrote.sent, hnew ip port sock hconnect]
  rfl

theorem main_sends_sevens :
    ∃ fuel sock' file' blocks, main zeroHash fuel sevensSurroundings = some (sock', file') ∧
      Tiles 0 blocks 20000 ∧ (∀ r ∈ blocks, 1 ≤ r.2 ∧ r.2 ≤ 16384) ∧
      peerReads sock'.delivered =
        ⟨ownHandshake (zeroHash (encode (.dict sevensTorrent.info))),
          (ownMessages blocks).map some, []⟩ := by
  obtain ⟨N, hruns⟩ := main_answered sevensTorrent_loadable sevensTorrent_named zeroHash_length
    rfl sevensSurroundings_reads ⟨by decide, by decide⟩ getPeerList_oneLine
    sevensSurroundings_address rfl sevensPeer_flowing sevens_length sevensPeer_boundary
    zeroHeader sevensPeer_stream rfl rfl
  obtain ⟨N', hsends⟩ := main_sends sevensTorrent_loadable zeroHash_length
    rfl sevensSurroundings_reads sevensSurroundings_new
  obtain ⟨sock', hrun, -⟩ := hruns (max N N') (le_max_left _ _)
  obtain ⟨ip, port, sock, blocks, hconnect, htiles, hsizes, hwrote, hreads⟩ :=
    hsends (max N N') (le_max_right _ _) _ _ hrun
  cases hconnect
  refine ⟨_, sock', _, blocks, hrun, htiles, hsizes, hreads.mpr ?_⟩
  apply Socket.complete_of_le (n := 2147483647) fun i => by rw [hwrote.takes]; rfl
  intro buf hbuf
  rw [hwrote.sent, List.mem_append, List.mem_cons, List.mem_map] at hbuf
  rcases hbuf with hbuf | rfl | ⟨msg, hmsg, rfl⟩
  · cases hbuf
  · rw [ownHandshake_length (zeroHash_length _)]
    omega
  · have hlen := ownMessages_encode_length msg hmsg
    omega

end Run

end BitFS.Client
