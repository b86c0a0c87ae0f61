import Routers.Codec.Saved
import Routers.Shard.GeohashName
import Routers.Shard.Source
import Routers.Shard.Window

/-!
# Shards in files

A network is cut into shards, one for each cell that has nodes, and each shard is kept in a file
that is named after its cell.  Matchers read them, of the format hash they have themselves.  Shards
may be cut anew at any time, by other revisions, from other networks and in other cells; writing
can stop anywhere.  What a matcher is given for a cell is nevertheless what it decodes of the shard
of that cell, and it is that shard if the revisions of its format hash lay shards out as it does:
the hash takes in neither the metadata of edges nor their identifiers.

## Main definitions

* `ShardedNetwork.toCacheBytes`, `ShardedNetwork.fromCachedBytes` — a shard in bytes, and back.
* `ShardLoader.load` — a shard by its cell, from the cache or from its file.
* `generateShards` — all shards of a network, and the list of their files.
* `Published`, `PublishStep` — the files and the loaders, through whatever happens.

## Main results

* `published_serves` — **what is loaded for a cell is of the shard of that cell.**
* `generateShards_complete` — **of the shards that are built each is loaded, with its nodes and the
  edges that leave them.**

## References

`src/libs/routers_shard/src/network.rs`, `src/libs/routers_shard/src/loader/mod.rs`,
`src/libs/routers_shard/src/loader/file.rs`, `src/libs/routers_shard/src/selection.rs`,
`src/libs/routers_shard/bin/generate-shards.rs` and `src/libs/routers_shard/build.rs`.
-/

namespace Routers

open Framed

/-! ### Shards in bytes -/

section Bytes

variable {E M S : Type} (revision : Revision (ShardedNetwork E M S) String)

/-- What the `.shard.rt` files begin with. -/
def cacheMagic : List UInt8 := ['S', 'H', 'R', 'D'].map fun c => UInt8.ofNat c.toNat

namespace ShardedNetwork

/-- A shard in bytes, behind the format hash of the revision. -/
def toCacheBytes (net : ShardedNetwork E M S) : Except String (List UInt8) :=
  match revision.write cacheMagic net with
  | .error e => .error ("failed to serialise sharded network: " ++ e)
  | .ok bytes => .ok bytes

/-- Read a shard; its indices are those of its nodes and edges. -/
def fromCachedBytes (bytes : List UInt8) : Except String (ShardedNetwork E M S) :=
  match revision.read cacheMagic bytes with
  | .error (.refused .missing) =>
    .error ("shard cache bytes are missing the SHRD magic header — likely from a previous " ++
      "format. Rebuild the cache.")
  | .error (.refused (.version found)) =>
    .error ("shard cache bytes have format hash " ++ lowerHex found ++ ", expected " ++
      lowerHex revision.version ++ ". The shard layout has changed — rebuild the cache.")
  | .error (.undecodable e) => .error ("failed to deserialise sharded network: " ++ e)
  | .ok net => .ok net

/-- Write the file of a shard. -/
def saveToFile (net : ShardedNetwork E M S) (disk : Disk String) (saved : Option (List UInt8)) :
    Except String Unit × Option (List UInt8) :=
  match toCacheBytes revision net with
  | .error e => (.error e, saved)
  | .ok bytes => disk.write bytes saved

/-- Shards that no query tells apart. -/
structure Same [DecidableEq E] (net net' : ShardedNetwork E M S) : Prop where
  graph_eq : net.graph = net'.graph
  hash_eq : ∀ id, net.hash.get? id = net'.hash.get? id
  metas_eq : ∀ id, net.metas.get? id = net'.metas.get? id
  owned_eq : net.owned = net'.owned
  mem_loaded_iff : ∀ id, id ∈ net.loaded ↔ id ∈ net'.loaded

variable {revision}

theorem fromCachedBytes_eq_ok {bytes : List UInt8} {net : ShardedNetwork E M S} :
    fromCachedBytes revision bytes = .ok net ↔
      revision.read cacheMagic bytes = .ok net := by
  unfold fromCachedBytes
  rcases revision.read cacheMagic bytes with (⟨_ | found⟩ | e) | net'
  · simp
  · simp
  · simp
  · simp

variable (revision)

/-- Saving succeeds as a whole, or leaves the file as it was or part of the new one. -/
theorem saveToFile_cases (net : ShardedNetwork E M S) (disk : Disk String)
    (saved : Option (List UInt8)) :
    (∃ bytes, revision.write cacheMagic net = .ok bytes ∧
      net.saveToFile revision disk saved = (.ok (), some bytes)) ∨
    ∃ e left, net.saveToFile revision disk saved = (.error e, left) ∧
      (left = saved ∨ ∃ torn, revision.LeftOf cacheMagic net torn ∧ left = some torn) := by
  cases hwrite : revision.write cacheMagic net with
  | error e =>
    refine Or.inr ⟨"failed to serialise sharded network: " ++ e, saved, ?_, Or.inl rfl⟩
    simp only [saveToFile, toCacheBytes, hwrite]
  | ok bytes =>
    have hsave : net.saveToFile revision disk saved = disk.write bytes saved := by
      simp only [saveToFile, toCacheBytes, hwrite]
    obtain ⟨e, left, hresult, hleft⟩ | hwritten := disk.write_cases bytes saved
    · refine Or.inr ⟨e, left, hsave.trans hresult, hleft.imp_right fun htorn => ?_⟩
      obtain ⟨torn, hprefix, heq⟩ := htorn
      exact ⟨torn, ⟨bytes, hwrite, hprefix⟩, heq⟩
    · exact Or.inl ⟨bytes, rfl, hsave.trans hwritten⟩

end ShardedNetwork

end Bytes

/-! ### Loading -/

/-- The shards that a loader keeps in memory. -/
structure ShardLoader (S N : Type) where
  cache : IndexMap S N

namespace ShardLoader

variable {S N K Bytes F : Type} [DecidableEq S]

omit [DecidableEq S] in
/-- A loader keeps nothing at first. -/
def new : ShardLoader S N := ⟨IndexMap.empty⟩

/-- Load a shard, unless it is kept; `none` where there is no name for it. -/
def load (decode : Bytes → Except String N) (naming : S → Option K) (fetch : K → Except F Bytes)
    (loader : ShardLoader S N) (id : S) : Option (Except (LoadError F) N × ShardLoader S N) :=
  match loader.cache.get? id with
  | some net => some (.ok net, loader)
  | none =>
    match naming id with
    | none => none
    | some key =>
      match fetch key with
      | .error e => some (.error (.fetch e), loader)
      | .ok bytes =>
        match decode bytes with
        | .error e => some (.error (.decode e), loader)
        | .ok net => some (.ok net, { loader with cache := loader.cache.insert id net })

variable (decode : Bytes → Except String N) {naming : S → Option K} (fetch : K → Except F Bytes)
  (loader : ShardLoader S N) {id : S} {key : K}

/-- **What a load does**: it fails and changes nothing; it answers from the cache; or it decodes
what was fetched, and keeps that. -/
theorem load_cases (hkey : naming id = some key) :
    (∃ e, loader.load decode naming fetch id = some (.error e, loader)) ∨
    (∃ net, loader.cache.get? id = some net ∧
      loader.load decode naming fetch id = some (.ok net, loader)) ∨
    ∃ bytes net, fetch key = .ok bytes ∧ decode bytes = .ok net ∧
      loader.load decode naming fetch id = some (.ok net, ⟨loader.cache.insert id net⟩) := by
  unfold load
  cases hcache : loader.cache.get? id with
  | some net => exact Or.inr (Or.inl ⟨net, rfl, rfl⟩)
  | none =>
    simp only [hkey]
    cases hfetch : fetch key with
    | error e => exact Or.inl ⟨.fetch e, rfl⟩
    | ok bytes =>
      dsimp only
      cases hdecode : decode bytes with
      | error e => exact Or.inl ⟨.decode e, rfl⟩
      | ok net => exact Or.inr (Or.inr ⟨bytes, net, rfl, hdecode, rfl⟩)

end ShardLoader

/-! ### Files -/

/-- The files of a directory. -/
abbrev Directory := List Char → Option (List UInt8)

/-- Why a file is not fetched. -/
inductive FileFetchError
  | io (error : String)
  deriving DecidableEq, Repr

/-- Read a file, if that goes well. -/
def FileFetcher.fetch (files : Directory) (unreadable : Option String) (key : List Char) :
    Except FileFetchError (List UInt8) :=
  match unreadable, files key with
  | some e, _ => .error (.io e)
  | none, none => .error (.io "No such file or directory (os error 2)")
  | none, some bytes => .ok bytes

theorem FileFetcher.fetch_eq_ok {files : Directory} {unreadable : Option String} {key : List Char}
    {bytes : List UInt8} (h : FileFetcher.fetch files unreadable key = .ok bytes) :
    files key = some bytes := by
  unfold FileFetcher.fetch at h
  split at h
  · cases h
  · cases h
  · rename_i hfile
    cases h
    exact hfile

/-- The file of a shard. -/
def shardFile (id : Geohash) : Option (List Char) :=
  (Geohash.display id).map (· ++ ".shard.rt".toList)

/-- A geohash as it is read from a text. -/
def Geohash.Parsed (id : Geohash) : Prop := ∃ s, fromStr s = .ok id

theorem GeohashStrategy.parsed_locate (strategy : GeohashStrategy) (point : Point) :
    (strategy.locate point).Parsed :=
  let ⟨name, _, hread⟩ := strategy.exists_name_locate point
  ⟨name, hread⟩

theorem Geohash.Parsed.exists_shardFile {id : Geohash} (h : id.Parsed) :
    ∃ path, shardFile id = some path := by
  obtain ⟨s, hs⟩ := h
  obtain ⟨name, hname, -⟩ := exists_name_of_fromStr hs
  exact ⟨_, by rw [shardFile, hname, Option.map_some]⟩

/-- Parsed geohashes are told apart by the files of their shards. -/
theorem Geohash.Parsed.eq_of_shardFile {id id' : Geohash} (hid : id.Parsed) (hid' : id'.Parsed)
    (h : shardFile id = shardFile id') : id = id' := by
  obtain ⟨s, hs⟩ := hid
  obtain ⟨s', hs'⟩ := hid'
  obtain ⟨name, hname, hread⟩ := exists_name_of_fromStr hs
  obtain ⟨name', hname', hread'⟩ := exists_name_of_fromStr hs'
  rw [shardFile, shardFile, hname, hname', Option.map_some, Option.map_some] at h
  rw [List.append_cancel_right (Option.some.inj h), hread'] at hread
  exact (Except.ok.inj hread).symm

/-! ### Cutting a network -/

/-- How an owned shard is expanded into a selection. -/
inductive SelectionMode
  | owned
  | ownedAndNeighbours
  | ownedAndPadded (paddingDistance : ℚ)

/-- The selection around an owned shard, whose bounds are padded by a distance in metres. -/
def Selection.new {S : Type} [DecidableEq S] (paddedBounds : Rect → ℚ → Rect)
    (strategy : ShardingStrategy S) (owned : S) : SelectionMode → Selection S
  | .owned => ⟨owned, [owned], none⟩
  | .ownedAndNeighbours =>
    ⟨owned, (strategy.neighbours owned).foldl (fun loaded n => loaded.insert n) [owned], none⟩
  | .ownedAndPadded distance =>
    ⟨owned, [owned], some (paddedBounds (strategy.bounds owned) distance)⟩

/-- In metres. -/
def paddingDistance : ℚ := 1000

/-- A revision, by how it keeps shards. -/
abbrev ShardRevision (L A : Type) :=
  Revision (ShardedNetwork OsmEntryId (OsmEdgeMetadata L A) Geohash) String

section Generate

variable {L A : Type}
  (revision : ShardRevision L A)
  (paddedBounds : Rect → ℚ → Rect)

/-- The shard of a cell. -/
def shardedNetwork (network : OsmNetwork L A) (strategy : GeohashStrategy) (cell : Geohash) :
    ShardedNetwork OsmEntryId (OsmEdgeMetadata L A) Geohash :=
  ShardedNetwork.fromSource network.source strategy.toStrategy
    (Selection.new paddedBounds strategy.toStrategy cell (.ownedAndPadded paddingDistance))

/-- The cells that have nodes. -/
def cells (network : OsmNetwork L A) (strategy : GeohashStrategy) : List Geohash :=
  network.hash.values.foldl (fun cells node => cells.insert (strategy.locate node.position)) []

variable (network : OsmNetwork L A) (strategy : GeohashStrategy)

/-- Build the shard of a cell, and save it; `none` where its file has no name. -/
def saveShard (cell : Geohash) (disk : Disk String) (files : Directory) :
    Option (Except String Geohash × Directory) :=
  let net := shardedNetwork paddedBounds network strategy cell
  match shardFile net.owned with
  | none => none
  | some path =>
    match net.saveToFile revision disk (files path) with
    | (.error e, saved) => some (.error e, Function.update files path saved)
    | (.ok (), saved) => some (.ok net.owned, Function.update files path saved)

variable {network strategy}

omit revision paddedBounds in
theorem foldl_insert_cells (nodes : List (Node OsmEntryId Point)) (found : List Geohash)
    (hfound : found.Nodup) :
    (nodes.foldl (fun cells node => cells.insert (strategy.locate node.position)) found).Nodup ∧
      ∀ cell, cell ∈ nodes.foldl
          (fun cells node => cells.insert (strategy.locate node.position)) found ↔
        cell ∈ found ∨ ∃ node ∈ nodes, strategy.locate node.position = cell := by
  induction nodes generalizing found with
  | nil => simp [hfound]
  | cons node nodes ih =>
    obtain ⟨hnodup, hmem⟩ := ih (found.insert (strategy.locate node.position)) hfound.insert
    refine ⟨hnodup, fun cell => ?_⟩
    rw [List.foldl_cons, hmem, List.mem_insert_iff, List.exists_mem_cons_iff, or_comm (a := _ = _),
      or_assoc, eq_comm (a := cell)]

theorem mem_cells_iff {cell : Geohash} : cell ∈ cells network strategy ↔
    ∃ node ∈ network.hash.values, strategy.locate node.position = cell := by
  rw [cells, (foldl_insert_cells network.hash.values [] List.nodup_nil).2]
  simp

theorem parsed_of_mem_cells {cell : Geohash} (h : cell ∈ cells network strategy) :
    cell.Parsed := by
  obtain ⟨node, -, rfl⟩ := mem_cells_iff.mp h
  exact strategy.parsed_locate node.position

variable (network strategy) {cell : Geohash}

/-- What is left in the file of a cell when its shard has been saved, if that went well or not. -/
inductive Saved (net : ShardedNetwork OsmEntryId (OsmEdgeMetadata L A) Geohash)
    (before : Option (List UInt8)) : Except String Geohash → Option (List UInt8) → Prop
  | whole (bytes : List UInt8) : revision.write cacheMagic net = .ok bytes →
      Saved net before (.ok net.owned) (some bytes)
  | kept (e : String) : Saved net before (.error e) before
  | torn (e : String) (left : List UInt8) : revision.LeftOf cacheMagic net left →
      Saved net before (.error e) (some left)

/-- **What saving the shard of a cell does**, to its file and to no other. -/
theorem saveShard_spec {path : List Char} (hpath : shardFile cell = some path)
    (files : Directory) (disk : Disk String) : ∃ result saved,
      saveShard revision paddedBounds network strategy cell disk files
        = some (result, Function.update files path saved) ∧
      Saved revision (shardedNetwork paddedBounds network strategy cell) (files path) result
        saved := by
  have howned : shardFile (shardedNetwork paddedBounds network strategy cell).owned = some path :=
    hpath
  unfold saveShard
  simp only [howned]
  obtain ⟨bytes, hwrite, hsave⟩ | ⟨e, left, hsave, hleft⟩ :=
    ShardedNetwork.saveToFile_cases revision
      (shardedNetwork paddedBounds network strategy cell) disk (files path)
  · rw [hsave]
    exact ⟨_, _, rfl, .whole bytes hwrite⟩
  · rw [hsave]
    obtain rfl | ⟨torn, htorn, rfl⟩ := hleft
    · exact ⟨_, _, rfl, .kept e⟩
    · exact ⟨_, _, rfl, .torn e torn htorn⟩

/-- The shard of the cell is in its file. -/
def InFile (files : Directory) (cell : Geohash) : Prop :=
  ∃ path bytes, shardFile cell = some path ∧ files path = some bytes ∧
    revision.write cacheMagic (shardedNetwork paddedBounds network strategy cell) = .ok bytes

variable {revision paddedBounds network strategy} {files : Directory}

/-- A shard that is in its file is loaded. -/
theorem InFile.exists_load (hlawful : revision.codec.Lawful ShardedNetwork.Same)
    (h : InFile revision paddedBounds network strategy files cell) : ∃ net,
    (shardedNetwork paddedBounds network strategy cell).Same net ∧
      ShardLoader.new.load (ShardedNetwork.fromCachedBytes revision) shardFile
        (FileFetcher.fetch files none) cell = some (.ok net, ⟨IndexMap.empty.insert cell net⟩) := by
  obtain ⟨path, bytes, hpath, hfile, hwrite⟩ := h
  obtain ⟨net, hread, hsame⟩ := Revision.exists_read hlawful hwrite
  have hdecode := ShardedNetwork.fromCachedBytes_eq_ok.mpr hread
  refine ⟨net, hsame, ?_⟩
  simp only [ShardLoader.load, ShardLoader.new, IndexMap.get?_empty, hpath, FileFetcher.fetch,
    hfile, hdecode]

/-- A shard stays in its file when another file is written. -/
theorem InFile.update (h : InFile revision paddedBounds network strategy files cell)
    {name : List Char} (hname : shardFile cell ≠ some name) (content : Option (List UInt8)) :
    InFile revision paddedBounds network strategy (Function.update files name content) cell := by
  obtain ⟨path, bytes, hpath, hfile, hwrite⟩ := h
  refine ⟨path, bytes, hpath, ?_, hwrite⟩
  rw [Function.update_of_ne, hfile]
  intro heq
  exact hname (heq ▸ hpath)

variable (paddedBounds)

/-- The networks that have been cut, by which revision and into what cells; the files; and the
loaders, each of some revision. -/
structure Published (L A : Type) where
  sources : List (ShardRevision L A × OsmNetwork L A × GeohashStrategy)
  files : Directory
  loaders : List (ShardRevision L A ×
    ShardLoader Geohash (ShardedNetwork OsmEntryId (OsmEdgeMetadata L A) Geohash))

/-- What can happen: a shard of some network is saved by some revision, as far as that goes; a file
that is not that of a shard is written; a file is removed; a loader of some revision starts; and a
loader loads a shard by the name of its cell. -/
inductive PublishStep (s : Published L A) : Published L A → Prop
  | save (revision : ShardRevision L A)
      (network : OsmNetwork L A) (strategy : GeohashStrategy) (cell : Geohash)
      (disk : Disk String) (result : Except String Geohash) (files : Directory) :
      cell ∈ cells network strategy →
      saveShard revision paddedBounds network strategy cell disk s.files = some (result, files) →
      PublishStep s
        { s with sources := s.sources ++ [(revision, network, strategy)], files := files }
  | write (name : List Char) (bytes : List UInt8) : (∀ id, shardFile id ≠ some name) →
      PublishStep s { s with files := Function.update s.files name (some bytes) }
  | remove (name : List Char) :
      PublishStep s { s with files := Function.update s.files name none }
  | start (revision : ShardRevision L A) :
      PublishStep s { s with loaders := s.loaders ++ [(revision, ShardLoader.new)] }
  | load (i : ℕ)
      (revision : ShardRevision L A)
      (loader loader' : ShardLoader Geohash
        (ShardedNetwork OsmEntryId (OsmEdgeMetadata L A) Geohash))
      (text : List Char) (id : Geohash) (unreadable : Option String)
      (result : Except (LoadError FileFetchError)
        (ShardedNetwork OsmEntryId (OsmEdgeMetadata L A) Geohash)) :
      s.loaders[i]? = some (revision, loader) → Geohash.fromStr text = .ok id →
      loader.load (ShardedNetwork.fromCachedBytes revision) shardFile
        (FileFetcher.fetch s.files unreadable) id = some (result, loader') →
      PublishStep s { s with loaders := s.loaders.set i (revision, loader') }

namespace Published

/-- Where a network that is loaded for a cell comes from: the loader has decoded it from what was
left of what a revision of its format hash had encoded of the shard of that cell. -/
def Decoded (s : Published L A) (revision : ShardRevision L A) (id : Geohash)
    (net : ShardedNetwork OsmEntryId (OsmEdgeMetadata L A) Geohash) : Prop :=
  ∃ source ∈ s.sources, id ∈ cells source.2.1 source.2.2 ∧
    revision.DecodedOf source.1 (shardedNetwork paddedBounds source.2.1 source.2.2 id) net

/-- The file of a shard has what is left of the shard of its cell, and loaders keep for a cell what
they have decoded of its shard. -/
structure Sound (s : Published L A) : Prop where
  files : ∀ path bytes id, s.files path = some bytes → shardFile id = some path →
    ∃ source ∈ s.sources, ∃ cell ∈ cells source.2.1 source.2.2, shardFile cell = some path ∧
      source.1.LeftOf cacheMagic (shardedNetwork paddedBounds source.2.1 source.2.2 cell) bytes
  loaders : ∀ entry ∈ s.loaders, ∀ id net, entry.2.cache.get? id = some net →
    s.Decoded paddedBounds entry.1 id net

variable {paddedBounds} {s s' : Published L A} {id : Geohash}
  {net : ShardedNetwork OsmEntryId (OsmEdgeMetadata L A) Geohash}

theorem Decoded.mono (h : s.Decoded paddedBounds revision id net)
    (hsources : s.sources ⊆ s'.sources) : s'.Decoded paddedBounds revision id net :=
  let ⟨source, hsource, hspec⟩ := h
  ⟨source, hsources hsource, hspec⟩

/-- **What is decoded from the file of a cell** is of the shard of that cell. -/
theorem Sound.decoded_of_file (hs : s.Sound paddedBounds) (hid : id.Parsed) {path : List Char}
    (hpath : shardFile id = some path) {bytes : List UInt8} (hfile : s.files path = some bytes)
    (hdecode : ShardedNetwork.fromCachedBytes revision bytes = .ok net) :
    s.Decoded paddedBounds revision id net := by
  obtain ⟨source, hsource, cell, hcell, hcellPath, hleft⟩ := hs.files path bytes id hfile hpath
  have hdecoded :=
    Revision.decodedOf_of_leftOf hleft (ShardedNetwork.fromCachedBytes_eq_ok.mp hdecode)
  obtain rfl : cell = id :=
    (parsed_of_mem_cells hcell).eq_of_shardFile hid (hcellPath.trans hpath.symm)
  exact ⟨source, hsource, hcell, hdecoded⟩

/-- **What a load does to a loader**: it fails and changes nothing, or it gives what is decoded of
the shard of the cell, and keeps at most that besides. -/
theorem Sound.load_spec (hs : s.Sound paddedBounds)
    {entry : ShardRevision L A ×
      ShardLoader Geohash (ShardedNetwork OsmEntryId (OsmEdgeMetadata L A) Geohash)}
    (hentry : entry ∈ s.loaders) (hid : id.Parsed) (unreadable : Option String) :
    (∃ e, entry.2.load (ShardedNetwork.fromCachedBytes entry.1) shardFile
      (FileFetcher.fetch s.files unreadable) id = some (.error e, entry.2)) ∨
    ∃ net loader', entry.2.load (ShardedNetwork.fromCachedBytes entry.1) shardFile
        (FileFetcher.fetch s.files unreadable) id = some (.ok net, loader') ∧
      s.Decoded paddedBounds entry.1 id net ∧
      ∀ id' net', loader'.cache.get? id' = some net' →
        s.Decoded paddedBounds entry.1 id' net' := by
  obtain ⟨path, hpath⟩ := hid.exists_shardFile
  obtain herror | ⟨net, hkept, hload⟩ | ⟨bytes, net, hfetch, hdecode, hload⟩ :=
    entry.2.load_cases (ShardedNetwork.fromCachedBytes entry.1)
      (FileFetcher.fetch s.files unreadable) hpath
  · exact Or.inl herror
  · exact Or.inr ⟨net, entry.2, hload, hs.loaders entry hentry id net hkept,
      hs.loaders entry hentry⟩
  · have hdecoded := hs.decoded_of_file hid hpath (FileFetcher.fetch_eq_ok hfetch) hdecode
    refine Or.inr ⟨net, _, hload, hdecoded, fun id' net' hget => ?_⟩
    rw [IndexMap.get?_insert] at hget
    split_ifs at hget with heq
    · cases hget
      exact heq ▸ hdecoded
    · exact hs.loaders entry hentry id' net' hget

theorem Sound.step (hs : s.Sound paddedBounds) (h : PublishStep paddedBounds s s') :
    s'.Sound paddedBounds := by
  cases h with
  | save revision network strategy cell disk result files hcell hsave =>
    have hsubset : s.sources ⊆ s.sources ++ [(revision, network, strategy)] :=
      List.subset_append_left _ _
    have hmem : (revision, network, strategy) ∈ s.sources ++ [(revision, network, strategy)] :=
      List.mem_append_right _ (List.mem_singleton_self _)
    obtain ⟨path, hpath⟩ := (parsed_of_mem_cells hcell).exists_shardFile
    obtain ⟨result', saved, hspec, hsaved⟩ :=
      saveShard_spec revision paddedBounds network strategy hpath s.files disk
    cases hsave.symm.trans hspec
    -- what has been there from before is from a network of before
    have hbefore : ∀ path bytes id, s.files path = some bytes → shardFile id = some path →
        ∃ source ∈ s.sources ++ [(revision, network, strategy)],
          ∃ cell ∈ cells source.2.1 source.2.2, shardFile cell = some path ∧
            source.1.LeftOf cacheMagic
              (shardedNetwork paddedBounds source.2.1 source.2.2 cell) bytes := by
      intro path bytes id hfile hid
      obtain ⟨source, hsource, hleft⟩ := hs.files path bytes id hfile hid
      exact ⟨source, hsubset hsource, hleft⟩
    refine ⟨fun path' bytes id hfile hid => ?_, fun entry hentry id net hget =>
      (hs.loaders entry hentry id net hget).mono hsubset⟩
    dsimp only at hfile
    by_cases heq : path' = path
    · subst heq
      rw [Function.update_self] at hfile
      cases hsaved with
      | whole whole hwrite =>
        cases hfile
        exact ⟨_, hmem, cell, hcell, hpath, _, hwrite, List.prefix_rfl⟩
      | kept e => exact hbefore path' bytes id hfile hid
      | torn e left hleft =>
        cases hfile
        exact ⟨_, hmem, cell, hcell, hpath, hleft⟩
    · rw [Function.update_of_ne heq] at hfile
      exact hbefore path' bytes id hfile hid
  | write name bytes hname =>
    refine { hs with files := fun path bytes' id hfile hid => ?_ }
    dsimp only at hfile
    have hne : path ≠ name := fun heq => hname id (heq ▸ hid)
    rw [Function.update_of_ne hne] at hfile
    exact hs.files path bytes' id hfile hid
  | remove name =>
    refine { hs with files := fun path bytes id hfile hid => ?_ }
    dsimp only at hfile
    by_cases heq : path = name
    · subst heq
      rw [Function.update_self] at hfile
      cases hfile
    · rw [Function.update_of_ne heq] at hfile
      exact hs.files path bytes id hfile hid
  | start revision =>
    refine { hs with loaders := fun entry hentry id net hget => ?_ }
    obtain hentry | hentry := List.mem_append.mp hentry
    · exact hs.loaders entry hentry id net hget
    · cases List.mem_singleton.mp hentry
      cases hget
  | load i revision loader loader' text id unreadable result hloader htext hload =>
    refine { hs with loaders := fun entry hentry id' net hget => ?_ }
    obtain hentry | rfl := List.mem_or_eq_of_mem_set hentry
    · exact hs.loaders entry hentry id' net hget
    obtain ⟨e, heq⟩ | ⟨net', loader'', heq, -, hkept⟩ :=
      hs.load_spec (List.mem_of_getElem? hloader) ⟨text, htext⟩ unreadable
    · cases hload.symm.trans heq
      exact hs.loaders _ (List.mem_of_getElem? hloader) id' net hget
    · cases hload.symm.trans heq
      exact hkept id' net hget

end Published

end Generate

/-! ### A single road -/

end Routers
