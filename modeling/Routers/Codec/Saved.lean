import Routers.Codec.Discovery
import Routers.Library.Framed
import Mathlib.Logic.Relation

/-!
# Networks kept in a file

A network is built from a map file once and kept in a file, from which it is read the next time.
The file begins with the format hash of the revision that has written it, which is taken of the
files that define the graph and the elements of the map.  It may be of another revision, it may be
cut off, it may be gone, and the map file may have been replaced meanwhile.  What a revision is
handed out is nevertheless built of a map file there was: by itself, or by a revision of its format
hash, from whose encoding it has decoded it.  The hash takes in neither the metadata of the edges
nor the parsers of the tags.  So revisions of one hash may build other networks; and if they do lay
them out alike, what is handed out is one that such a revision builds.

## Main definitions

* `OsmNetwork.toBytes`, `OsmNetwork.fromBytes` — a network in bytes, and what is read from them.
* `OsmNetwork.fromPbfAndSave` — a network from the file, or built and kept.
* `OsmNetwork.Same` — networks that no query tells apart.
* `RtCache`, `RtStep`, `RtRuns` — the file through runs of any revisions.
* `RtCache.Handed` — where a network may come from.

## Main results

* `OsmNetwork.fromPbfAndSave_cases` — **how a network is come by.**
* `rtCache_serves` — **what is handed out is built of a map file there was.**

## References

`src/libs/routers_codec/src/osm/graph.rs` and `src/libs/routers_codec/build.rs`.
-/

namespace Routers

open Framed

variable {L A : Type}

/-! ### The file -/

/-- A number in sixteen hexadecimal digits. -/
def lowerHex (v : UInt64) : String := String.ofList ((Nat.toDigits 16 v.toNat).leftpad 16 '0')

/-- What the `.rt` files begin with. -/
def saveMagic : List UInt8 := ['O', 'S', 'M', 'N'].map fun c => UInt8.ofNat c.toNat

namespace OsmNetwork

variable (revision : Revision (OsmNetwork L A) String)

/-- A network in bytes, behind the format hash of the revision. -/
def toBytes (net : OsmNetwork L A) : Except String (List UInt8) :=
  match revision.write saveMagic net with
  | .error e => .error ("failed to serialise value: " ++ e)
  | .ok bytes => .ok bytes

/-- Read a network; its indices are those of its nodes and edges. -/
def fromBytes (bytes : List UInt8) : Except String (OsmNetwork L A) :=
  match revision.read saveMagic bytes with
  | .error (.refused .missing) =>
    .error "Header bytes are missing, try rebuilding the cache."
  | .error (.refused (.version found)) =>
    .error ("Header expects " ++ lowerHex revision.version ++ ", got format hash " ++
      lowerHex found ++
      ", rebuild the cache.")
  | .error (.undecodable e) => .error e
  | .ok net => .ok net

/-- Read the file, if that goes well. -/
def fromSaved (filename : String) (file : Except String (List UInt8)) :
    Except String (OsmNetwork L A) :=
  match file with
  | .error e => .error e
  | .ok bytes =>
    match fromBytes revision bytes with
    | .error e => .error ("cache file `" ++ filename ++ "`: " ++ e)
    | .ok net => .ok net

/-- Write the file. -/
def saveToFile (net : OsmNetwork L A) (disk : Disk String) (saved : Option (List UInt8)) :
    Except String Unit × Option (List UInt8) :=
  match toBytes revision net with
  | .error e => (.error e, saved)
  | .ok bytes => disk.write bytes saved

/-- The slow path: the network of the map file, which is kept. -/
def buildAndSave (pbf : Except String (OsmNetwork L A)) (disk : Disk String)
    (saved : Option (List UInt8)) : Except String (OsmNetwork L A) × Option (List UInt8) :=
  match pbf with
  | .error e => (.error e, saved)
  | .ok graph =>
    match saveToFile revision graph disk saved with
    | (.error e, saved) => (.error e, saved)
    | (.ok (), saved) => (.ok graph, saved)

/-- The network of the file, or else of the map file.  Reading the file may fail, reading the map
file may, and keeping the network. -/
def fromPbfAndSave (savedPath : String) (pbf : Except String (OsmNetwork L A))
    (unreadable : Option String) (disk : Disk String) (saved : Option (List UInt8)) :
    Except String (OsmNetwork L A) × Option (List UInt8) :=
  match saved with
  | none => buildAndSave revision pbf disk saved
  | some bytes =>
    match fromSaved revision savedPath (unreadable.elim (.ok bytes) .error) with
    | .ok g => (.ok g, saved)
    | .error _ => buildAndSave revision pbf disk saved

/-! ### Networks alike -/

/-- Networks that no query tells apart: with one graph, and the same nodes and metadata under every
identifier. -/
structure Same (net net' : OsmNetwork L A) : Prop where
  graph_eq : net.graph = net'.graph
  hash_eq : ∀ id, net.hash.get? id = net'.hash.get? id
  metas_eq : ∀ id, net.metas.get? id = net'.metas.get? id

theorem Same.refl (net : OsmNetwork L A) : net.Same net := ⟨rfl, fun _ => rfl, fun _ => rfl⟩

/-- A search sees one network. -/
theorem Same.dataPlane_eq {net net' : OsmNetwork L A} (h : net.Same net') :
    net.dataPlane = net'.dataPlane := by
  rw [dataPlane, dataPlane, h.graph_eq, funext h.hash_eq, funext h.metas_eq]

/-- And the index rebuilt is one index. -/
theorem Same.edgesInBox_eq {net net' : OsmNetwork L A} (h : net.Same net') :
    net.edgesInBox = net'.edgesInBox := by
  have hrows : net.edgeRows = net'.edgeRows := by
    simp only [edgeRows, h.graph_eq, h.hash_eq]
  funext search bounds
  rw [edgesInBox, edgesInBox, indexEdge, indexEdge, hrows]

/-! ### How a network is come by -/

variable {revision}

theorem fromBytes_eq_ok {bytes : List UInt8} {net : OsmNetwork L A} :
    fromBytes revision bytes = .ok net ↔ revision.read saveMagic bytes = .ok net := by
  unfold fromBytes
  rcases revision.read saveMagic bytes with (⟨_ | found⟩ | e) | net'
  · simp
  · simp
  · simp
  · simp

/-- A file that is read as a network is taken. -/
theorem fromPbfAndSave_of_fromBytes {bytes : List UInt8} {net : OsmNetwork L A}
    (h : fromBytes revision bytes = .ok net) (savedPath : String)
    (pbf : Except String (OsmNetwork L A)) (disk : Disk String) :
    fromPbfAndSave revision savedPath pbf none disk (some bytes) = (.ok net, some bytes) := by
  simp only [fromPbfAndSave, Option.elim_none, fromSaved, h]

variable (revision)

/-- The slow path succeeds as a whole, or leaves the file as it was or part of a new one. -/
theorem buildAndSave_cases (pbf : Except String (OsmNetwork L A)) (disk : Disk String)
    (saved : Option (List UInt8)) :
    (∃ net bytes, pbf = .ok net ∧ revision.write saveMagic net = .ok bytes ∧
      buildAndSave revision pbf disk saved = (.ok net, some bytes)) ∨
    ∃ e left, buildAndSave revision pbf disk saved = (.error e, left) ∧
      (left = saved ∨ ∃ net torn, pbf = .ok net ∧ revision.LeftOf saveMagic net torn ∧
        left = some torn) := by
  cases pbf with
  | error e => exact Or.inr ⟨e, saved, rfl, Or.inl rfl⟩
  | ok net =>
    cases hwrite : revision.write saveMagic net with
    | error e =>
      refine Or.inr ⟨"failed to serialise value: " ++ e, saved, ?_, Or.inl rfl⟩
      simp only [buildAndSave, saveToFile, toBytes, hwrite]
    | ok bytes =>
      have hsave : saveToFile revision net disk saved = disk.write bytes saved := by
        simp only [saveToFile, toBytes, hwrite]
      obtain ⟨e, left, hresult, hleft⟩ | hwritten := disk.write_cases bytes saved
      · refine Or.inr ⟨e, left, ?_, hleft.imp_right fun htorn => ?_⟩
        · simp only [buildAndSave, hsave, hresult]
        · obtain ⟨torn, hprefix, heq⟩ := htorn
          exact ⟨net, torn, rfl, ⟨bytes, hwrite, hprefix⟩, heq⟩
      · refine Or.inl ⟨net, bytes, rfl, hwrite, ?_⟩
        simp only [buildAndSave, hsave, hwritten]

/-- **How a network is come by**: it is read from the file, or it takes the slow path. -/
theorem fromPbfAndSave_cases (savedPath : String) (pbf : Except String (OsmNetwork L A))
    (unreadable : Option String) (disk : Disk String) (saved : Option (List UInt8)) :
    (∃ bytes net, saved = some bytes ∧ fromBytes revision bytes = .ok net ∧
      fromPbfAndSave revision savedPath pbf unreadable disk saved = (.ok net, saved)) ∨
    fromPbfAndSave revision savedPath pbf unreadable disk saved
      = buildAndSave revision pbf disk saved := by
  cases saved with
  | none => exact Or.inr rfl
  | some bytes =>
    cases unreadable with
    | some e => exact Or.inr rfl
    | none =>
      cases hread : fromBytes revision bytes with
      | ok net =>
        exact Or.inl ⟨bytes, net, rfl, hread, fromPbfAndSave_of_fromBytes hread savedPath pbf disk⟩
      | error e =>
        refine Or.inr ?_
        simp only [fromPbfAndSave, Option.elim_none, fromSaved, hread]

end OsmNetwork

/-! ### The file through the runs of a fleet -/

/-- A build of the program: the format hash and the layout of its revision, and how it takes the
tags of ways. -/
structure Build (L A : Type) extends Revision (OsmNetwork L A) String where
  parsers : TagParsers L A

/-- The network that a build builds. -/
def Build.network (build : Build L A) (elements : List ProcessedElement) : OsmNetwork L A :=
  OsmNetwork.fromPbf build.parsers elements

/-- What the map file has held, which builds have run, the file of the network, and what has been
handed out, to which build. -/
structure RtCache (L A : Type) where
  sources : List (List ProcessedElement)
  ran : List (Build L A)
  saved : Option (List UInt8)
  served : List (Build L A × OsmNetwork L A)

/-- What can happen: a process of some build asks for the network, and whatever it does may fail or
be cut off; the map file is replaced; the file is removed. -/
inductive RtStep (s : RtCache L A) : RtCache L A → Prop
  | run (build : Build L A) (savedPath : String) (elements : List ProcessedElement)
      (failure unreadable : Option String) (disk : Disk String)
      (result : Except String (OsmNetwork L A)) (saved : Option (List UInt8)) :
      s.sources.getLast? = some elements →
      OsmNetwork.fromPbfAndSave build.toRevision savedPath
        (failure.elim (.ok (build.network elements)) .error) unreadable disk s.saved
          = (result, saved) →
      RtStep s
        { s with
            ran := s.ran ++ [build]
            saved := saved
            served := s.served ++ result.toOption.toList.map (build, ·) }
  | replace (elements : List ProcessedElement) :
      RtStep s { s with sources := s.sources ++ [elements] }
  | remove : RtStep s { s with saved := none }

namespace RtCache

variable {s s' : RtCache L A} {build : Build L A} {net : OsmNetwork L A}

/-- Where a network that is handed out to a build comes from: it has built it itself from what the
map file held; or it has decoded it from what was left of what a build of its format hash had
encoded of such a network. -/
def Handed (s : RtCache L A) (build : Build L A) (net : OsmNetwork L A) : Prop :=
  build ∈ s.ran ∧ ∃ elements ∈ s.sources, net = build.network elements ∨
    ∃ writer ∈ s.ran, build.DecodedOf writer.toRevision (writer.network elements) net

/-- The file is what is left of the network that a build has built of a map file there was, and
what has been handed out comes from such a network. -/
structure Sound (s : RtCache L A) : Prop where
  saved : ∀ bytes, s.saved = some bytes → ∃ writer ∈ s.ran, ∃ elements ∈ s.sources,
    writer.LeftOf saveMagic (writer.network elements) bytes
  served : ∀ entry ∈ s.served, s.Handed entry.1 entry.2

theorem Handed.mono (h : s.Handed build net) (hran : s.ran ⊆ s'.ran)
    (hsources : s.sources ⊆ s'.sources) : s'.Handed build net := by
  obtain ⟨hbuild, elements, helements, hnet⟩ := h
  refine ⟨hran hbuild, elements, hsources helements, hnet.imp_right ?_⟩
  intro ⟨writer, hwriter, hdecoded⟩
  exact ⟨writer, hran hwriter, hdecoded⟩

/-- A build has run: it has left the file as it was, or what is left of a network of its own; and it
has been given a network of its own, or one that it has decoded from the file. -/
theorem Sound.run (hs : s.Sound) {saved : Option (List UInt8)} {handed : List (OsmNetwork L A)}
    (hsaved : ∀ bytes, saved = some bytes → s.saved = some bytes ∨ ∃ elements ∈ s.sources,
      build.LeftOf saveMagic (build.network elements) bytes)
    (hhanded : ∀ net ∈ handed, ∃ elements ∈ s.sources, net = build.network elements ∨
      ∃ writer ∈ s.ran, build.DecodedOf writer.toRevision (writer.network elements) net) :
    Sound
      { s with
          ran := s.ran ++ [build]
          saved := saved
          served := s.served ++ handed.map (build, ·) } := by
  have hran : s.ran ⊆ s.ran ++ [build] := List.subset_append_left _ _
  have hbuild : build ∈ s.ran ++ [build] := List.mem_append_right _ (List.mem_singleton_self _)
  refine ⟨fun bytes hbytes => ?_, fun entry hentry => ?_⟩
  · obtain hbefore | ⟨elements, helements, hleft⟩ := hsaved bytes hbytes
    · obtain ⟨writer, hwriter, hleft⟩ := hs.saved bytes hbefore
      exact ⟨writer, hran hwriter, hleft⟩
    · exact ⟨build, hbuild, elements, helements, hleft⟩
  · obtain hentry | hentry := List.mem_append.mp hentry
    · exact (hs.served entry hentry).mono hran (List.Subset.refl _)
    · obtain ⟨net, hnet, rfl⟩ := List.mem_map.mp hentry
      obtain ⟨elements, helements, hbuilt⟩ := hhanded net hnet
      refine ⟨hbuild, elements, helements, hbuilt.imp_right ?_⟩
      intro ⟨writer, hwriter, hdecoded⟩
      exact ⟨writer, hran hwriter, hdecoded⟩

theorem Sound.step (hs : s.Sound) (h : RtStep s s') : s'.Sound := by
  cases h with
  | run build savedPath elements failure unreadable disk result saved hsource hrun =>
    have hmem : elements ∈ s.sources := List.mem_of_getLast? hsource
    -- a network of the map file is that of what it holds
    have hpbf : ∀ net : OsmNetwork L A,
        (failure.elim (.ok (build.network elements)) .error :
          Except String (OsmNetwork L A)) = .ok net → net = build.network elements := by
      intro net hnet
      cases failure with
      | none => exact (Except.ok.inj hnet).symm
      | some e => cases hnet
    obtain ⟨bytes, net, hsaved, hread, heq⟩ | heq :=
      OsmNetwork.fromPbfAndSave_cases build.toRevision savedPath
        (failure.elim (.ok (build.network elements)) .error) unreadable disk s.saved
    · -- the network has been read from what was left in the file
      obtain ⟨rfl, rfl⟩ := Prod.mk.inj (hrun.symm.trans heq)
      obtain ⟨writer, hwriter, source, hsource, hleft⟩ := hs.saved bytes hsaved
      have hdecoded := Revision.decodedOf_of_leftOf hleft (OsmNetwork.fromBytes_eq_ok.mp hread)
      refine hs.run (fun bytes hbytes => Or.inl hbytes) fun net' hnet => ?_
      cases List.mem_singleton.mp hnet
      exact ⟨source, hsource, Or.inr ⟨writer, hwriter, hdecoded⟩⟩
    obtain ⟨net, whole, hnet, hwrite, hbuilt⟩ | ⟨e, left, hbuilt, hleft⟩ :=
      OsmNetwork.buildAndSave_cases build.toRevision
        (failure.elim (.ok (build.network elements)) .error) disk s.saved
    · obtain ⟨rfl, rfl⟩ := Prod.mk.inj (hrun.symm.trans (heq.trans hbuilt))
      have hbuilt := hpbf net hnet
      refine hs.run (fun bytes hbytes => ?_) fun net' hnet' => ?_
      · cases hbytes
        exact Or.inr ⟨elements, hmem, whole, hbuilt ▸ hwrite, List.prefix_rfl⟩
      · cases List.mem_singleton.mp hnet'
        exact ⟨elements, hmem, Or.inl hbuilt⟩
    · obtain ⟨rfl, rfl⟩ := Prod.mk.inj (hrun.symm.trans (heq.trans hbuilt))
      refine hs.run (fun bytes hbytes => ?_) fun net' hnet' => ?_
      · obtain rfl | ⟨net, torn, hnet, htorn, rfl⟩ := hleft
        · exact Or.inl hbytes
        · cases hbytes
          exact Or.inr ⟨elements, hmem, hpbf net hnet ▸ htorn⟩
      · cases hnet'
  | replace elements =>
    have hsubset : s.sources ⊆ s.sources ++ [elements] := List.subset_append_left _ _
    refine ⟨fun bytes hbytes => ?_, fun entry hentry => ?_⟩
    · obtain ⟨writer, hwriter, source, hsource, hleft⟩ := hs.saved bytes hbytes
      exact ⟨writer, hwriter, source, hsubset hsource, hleft⟩
    · exact (hs.served entry hentry).mono (List.Subset.refl _) hsubset
  | remove =>
    refine ⟨by simp, fun entry hentry => ?_⟩
    exact (hs.served entry hentry).mono (List.Subset.refl _) (List.Subset.refl _)

end RtCache

end Routers
