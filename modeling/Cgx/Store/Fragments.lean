import Cgx.Lib.Framing
import Cgx.Store.Writes

open disk framing Function

namespace cgx.store

/-- A fragment row: what the cache holds under a key. -/
structure CachedFragment where
  key : String
  lang : String
  frontend_version : UInt32
  fragment : List UInt8
deriving DecidableEq

/-- A fragment to store. -/
structure FragmentInput where
  key : String
  lang : String
  frontend_version : UInt32
  bytes : List UInt8
deriving DecidableEq

/-- The row a fragment is stored as. -/
def FragmentInput.row (f : FragmentInput) : CachedFragment :=
  ⟨f.key, f.lang, f.frontend_version, f.bytes⟩

/-- `((blob_oid, fn_fqn), facts_hash)`. -/
abbrev FnRow := (String × String) × String

/-- What a fragment key looks like: a digest of 20 bytes in lowercase hex. -/
def IsKey (key : String) : Prop :=
  key.toList.length = 40 ∧ ∀ c ∈ key.toList, is_hex c

def SHA1_LEN : Nat := 20

def hex_digit (n : Nat) : Char :=
  if n < 10 then Char.ofNat (48 + n) else Char.ofNat (87 + n)

/-- Two lowercase hex digits for each byte. -/
def hex_lower (bytes : List UInt8) : String :=
  String.ofList (bytes.flatMap fun b => [hex_digit (b.toNat / 16), hex_digit (b.toNat % 16)])

/-- `"cgx-fragment-key/v1"` and a zero byte, in front of every identity. -/
def FRAGMENT_KEY_DOMAIN : List UInt8 :=
  "cgx-fragment-key/v1".toUTF8.data.toList ++ [0]

/-- The key of an extraction identity: its digest, apart from those of plain blobs. -/
def FragmentKey.derive (sha1 : List UInt8 → List UInt8) (identity : List UInt8) : String :=
  hex_lower (sha1 (FRAGMENT_KEY_DOMAIN ++ identity))

theorem is_hex_digit {n : Nat} (h : n < 16) : is_hex (hex_digit n) := by
  have hall : ∀ n < 16, is_hex (hex_digit n) := by decide
  exact hall n h

theorem length_hex_digits (bytes : List UInt8) :
    (bytes.flatMap fun b => [hex_digit (b.toNat / 16), hex_digit (b.toNat % 16)]).length = 2 * bytes.length := by
  induction bytes with
  | nil => rfl
  | cons b rest ih =>
    rw [List.flatMap_cons, List.length_append, ih, List.length_cons, List.length_cons, List.length_cons]
    simp only [List.length_nil]
    omega

theorem FragmentKey.is_key_derive {sha1 : List UInt8 → List UInt8} (h : ∀ bytes, (sha1 bytes).length = SHA1_LEN)
    (identity : List UInt8) : IsKey (derive sha1 identity) := by
  rw [IsKey, derive, hex_lower, String.toList_ofList]
  constructor
  · rw [length_hex_digits, h, SHA1_LEN]
  · intro c hc
    obtain ⟨b, _, hb⟩ := List.mem_flatMap.mp hc
    have hbyte : b.toNat < 256 := b.toNat_lt
    obtain rfl | hb := List.mem_cons.mp hb
    · exact is_hex_digit (by omega)
    · rw [List.mem_singleton.mp hb]
      exact is_hex_digit (by omega)

/-! ### The cache of an index run -/

/-- The part of a fact store that an index run reads: its fragments and its per-function
rows. A put leaves the fragments of other keys alone; under a key it puts, the row has the
frontend version of an input for the key and is that input, another one for the key, or the
row that was there. The rows of the functions are kept apart from the fragments. -/
structure FactCache (σ : Type) where
  empty : σ
  fragment : σ → String → Except StoreError (Option CachedFragment)
  put_fragments : σ → List FragmentInput → Except StoreError σ
  load_fn_intraproc_cache : σ → List FnRow
  put_fn_intraproc_cache : σ → List FnRow → σ
  fragment_empty : ∀ key, IsKey key → fragment empty key = .ok none
  fragment_total : ∀ s key, IsKey key → ∃ row, fragment s key = .ok row
  put_total : ∀ s batch, (∀ f ∈ batch, IsKey f.key) → ∃ s', put_fragments s batch = .ok s'
  put_spec : ∀ s batch s' key, (∀ f ∈ batch, IsKey f.key) → IsKey key → put_fragments s batch = .ok s' →
    (∀ f ∈ batch, f.key ≠ key) ∧ fragment s' key = fragment s key ∨
      ∃ row, fragment s' key = .ok (some row) ∧
        (∃ f ∈ batch, f.key = key ∧ row.frontend_version = f.frontend_version) ∧
        (fragment s key = .ok (some row) ∨ ∃ f ∈ batch, f.key = key ∧ row = f.row)
  fragment_put_fn : ∀ s rows key, fragment (put_fn_intraproc_cache s rows) key = fragment s key

/-! ### SqliteStore -/

/-- A table of fragments by key. -/
abbrev FragmentTable := String → Option CachedFragment

namespace SqliteStore

/-- Insert a row; on a conflict the row is replaced if its frontend version differs. -/
def put_fragment (table : FragmentTable) (f : FragmentInput) : FragmentTable :=
  match table f.key with
  | some row =>
    if row.frontend_version = f.frontend_version then table else update table f.key (some f.row)
  | none => update table f.key (some f.row)

def put_fragments (table : FragmentTable) (batch : List FragmentInput) : FragmentTable :=
  batch.foldl put_fragment table

end SqliteStore

/-! ### OverlayStore -/

namespace OverlayStore

/-- Insert a row, in place of the one that was there. -/
def put_fragment (table : FragmentTable) (f : FragmentInput) : FragmentTable :=
  update table f.key (some f.row)

def put_fragments (table : FragmentTable) (batch : List FragmentInput) : FragmentTable :=
  batch.foldl put_fragment table

end OverlayStore

/-! ### ObjectStore -/

/-- What the file of a fragment holds. -/
structure StoredFragment where
  lang : String
  frontend_version : UInt32
  bytes : List UInt8
deriving DecidableEq

/-- The fields one after the other. -/
def StoredFragment.encode (sf : StoredFragment) : List UInt8 :=
  sized sf.lang.toUTF8.data.toList ++ (varint sf.frontend_version.toNat ++ sized sf.bytes)

def StoredFragment.decode (bytes : List UInt8) : Option StoredFragment := do
  let (lang, rest) ← read_sized bytes
  let lang ← String.fromUTF8? ⟨lang.toArray⟩
  let (version, rest) ← read_varint rest
  let (bytes, _) ← read_sized rest
  if version < 2 ^ 32 then some ⟨lang, UInt32.ofNat version, bytes⟩ else none

theorem from_utf8_toUTF8 (s : String) : String.fromUTF8? ⟨s.toUTF8.data.toList.toArray⟩ = some s := by
  rw [Array.toArray_toList]
  exact dif_pos s.isValidUTF8

theorem StoredFragment.decode_encode (sf : StoredFragment) : decode sf.encode = some sf := by
  have hversion : sf.frontend_version.toNat < 2 ^ 32 := sf.frontend_version.toNat_lt
  have hlast : read_sized (sized sf.bytes) = some (sf.bytes, []) := by
    rw [← read_sized_append sf.bytes [], List.append_nil]
  simp only [decode, encode, read_sized_append, read_varint_append, from_utf8_toUTF8, hlast,
    Option.bind_eq_bind, Option.bind_some, if_pos hversion, UInt32.ofNat_toNat]

/-- The codec of stored fragments and the digest that seals them. -/
structure FragmentCodec where
  encode : StoredFragment → List UInt8
  decode : List UInt8 → Option StoredFragment
  digest : List UInt8 → List UInt8
  decode_encode : ∀ sf, decode (encode sf) = some sf
  digest_length : ∀ bytes, (digest bytes).length = SHA1_LEN

namespace FragmentCodec

variable (fc : FragmentCodec)

/-- The encoded fragment with the digest of its bytes behind it. -/
def seal_fragment (sf : StoredFragment) : List UInt8 :=
  fc.encode sf ++ fc.digest (fc.encode sf)

/-- Decode a sealed fragment, unless it is cut short, fails its digest or does not decode. -/
def open_fragment (bytes : List UInt8) : Option StoredFragment :=
  if bytes.length < SHA1_LEN then none
  else
    let body := bytes.take (bytes.length - SHA1_LEN)
    if fc.digest body = bytes.drop (bytes.length - SHA1_LEN) then fc.decode body else none

theorem open_seal (sf : StoredFragment) : fc.open_fragment (fc.seal_fragment sf) = some sf := by
  have hlen : (fc.seal_fragment sf).length = (fc.encode sf).length + SHA1_LEN := by
    rw [seal_fragment, List.length_append, fc.digest_length]
  have hcut : (fc.seal_fragment sf).length - SHA1_LEN = (fc.encode sf).length := by
    omega
  rw [open_fragment, if_neg (by omega), hcut, seal_fragment, List.take_left, List.drop_left, if_pos rfl,
    fc.decode_encode]

end FragmentCodec

/-- The codec of the fields as they stand, sealed by a digest. -/
def FragmentCodec.of_digest (digest : List UInt8 → List UInt8) (h : ∀ bytes, (digest bytes).length = SHA1_LEN) :
    FragmentCodec :=
  ⟨StoredFragment.encode, StoredFragment.decode, digest, StoredFragment.decode_encode, h⟩

namespace ObjectStore

variable (fc : FragmentCodec)

/-- The file of a fragment. -/
def fragment_path (key : String) : Except StoreError Path := do
  let (head, rest) ← object_path key
  .ok (.file .fragments head rest)

def fragment (files : StoreFiles (List UInt8)) (key : String) : Except StoreError (Option CachedFragment) := do
  let path ← fragment_path key
  .ok (((files path).bind fc.open_fragment).map fun sf => ⟨key, sf.lang, sf.frontend_version, sf.bytes⟩)

/-- Write a fragment, unless a readable one of the same frontend version is there. -/
def put_fragment (files : StoreFiles (List UInt8)) (f : FragmentInput) : Except StoreError (StoreFiles (List UInt8)) := do
  let path ← fragment_path f.key
  if ((files path).bind fc.open_fragment).any fun sf => sf.frontend_version = f.frontend_version then .ok files
  else .ok (files.run (write_tmp_then_rename path (fc.seal_fragment ⟨f.lang, f.frontend_version, f.bytes⟩)))

def put_fragments (files : StoreFiles (List UInt8)) (batch : List FragmentInput) :
    Except StoreError (StoreFiles (List UInt8)) :=
  batch.foldlM (put_fragment fc) files

end ObjectStore

/-! ### What a put leaves -/

/-- What inserting a row leaves under a key: nothing new, or a row of the version inserted. -/
def Inserts (put : FragmentTable → FragmentInput → FragmentTable) : Prop :=
  ∀ table f key, f.key ≠ key ∧ put table f key = table key ∨
    f.key = key ∧ ∃ row, put table f key = some row ∧ row.frontend_version = f.frontend_version ∧
      (table key = some row ∨ row = f.row)

theorem SqliteStore.inserts_put_fragment : Inserts put_fragment := by
  intro table f key
  by_cases h : f.key = key
  · subst h
    refine .inr ⟨rfl, ?_⟩
    rw [put_fragment]
    cases hrow : table f.key with
    | none => exact ⟨f.row, update_self _ _ _, rfl, .inr rfl⟩
    | some row =>
      dsimp only
      split
      · rename_i hversion
        exact ⟨row, hrow, hversion, .inl rfl⟩
      · exact ⟨f.row, update_self _ _ _, rfl, .inr rfl⟩
  · refine .inl ⟨h, ?_⟩
    have hother : update table f.key (some f.row) key = table key := update_of_ne (Ne.symm h) _ _
    rw [put_fragment]
    cases table f.key with
    | none => exact hother
    | some row =>
      dsimp only
      split
      · rfl
      · exact hother

theorem OverlayStore.inserts_put_fragment : Inserts put_fragment := by
  intro table f key
  by_cases h : f.key = key
  · subst h
    exact .inr ⟨rfl, f.row, update_self _ _ _, rfl, .inr rfl⟩
  · exact .inl ⟨h, update_of_ne (Ne.symm h) _ _⟩

/-- A batch leaves a key alone, or a row of a version that it inserts under the key. -/
theorem Inserts.batch {put : FragmentTable → FragmentInput → FragmentTable} (hput : Inserts put)
    (batch : List FragmentInput) (table : FragmentTable) (key : String) :
    (∀ f ∈ batch, f.key ≠ key) ∧ batch.foldl put table key = table key ∨
      ∃ row, batch.foldl put table key = some row ∧
        (∃ f ∈ batch, f.key = key ∧ row.frontend_version = f.frontend_version) ∧
        (table key = some row ∨ ∃ f ∈ batch, f.key = key ∧ row = f.row) := by
  induction batch generalizing table with
  | nil => exact .inl ⟨fun f hf => absurd hf List.not_mem_nil, rfl⟩
  | cons f rest ih =>
    rw [List.foldl_cons]
    obtain ⟨hlater, hsame⟩ | ⟨row, hrow, ⟨g, hg, hgkey, hversion⟩, horigin⟩ := ih (put table f)
    · rw [hsame]
      obtain ⟨hne, hfirst⟩ | ⟨hkey, row, hrow, hversion, horigin⟩ := hput table f key
      · refine .inl ⟨?_, hfirst⟩
        rw [List.forall_mem_cons]
        exact ⟨hne, hlater⟩
      · exact .inr ⟨row, hrow, ⟨f, List.mem_cons_self, hkey, hversion⟩,
          horigin.imp_right fun heq => ⟨f, List.mem_cons_self, hkey, heq⟩⟩
    · refine .inr ⟨row, hrow, ⟨g, List.mem_cons_of_mem f hg, hgkey, hversion⟩, ?_⟩
      obtain hfirst | ⟨f', hf', hkey', heq⟩ := horigin
      · obtain ⟨_, hsame⟩ | ⟨hkey, row', hrow', _, horigin'⟩ := hput table f key
        · exact .inl (hsame ▸ hfirst)
        · obtain rfl : row' = row := Option.some.inj (hrow'.symm.trans hfirst)
          exact horigin'.imp_right fun heq => ⟨f, List.mem_cons_self, hkey, heq⟩
      · exact .inr ⟨f', List.mem_cons_of_mem f hf', hkey', heq⟩

theorem object_path_of_key {key : String} (h : IsKey key) :
    object_path key = .ok (String.ofList (key.toList.take 2), String.ofList (key.toList.drop 2)) := by
  obtain ⟨hlen, hhex⟩ := h
  rw [object_path]
  generalize key.toList = l at hlen hhex
  obtain _ | ⟨x, _ | ⟨y, rest⟩⟩ := l
  · cases hlen
  · cases hlen
  · have hx := is_hex_utf8Size (hhex x (by simp))
    have hy := is_hex_utf8Size (hhex y (by simp))
    simp [split_at_two, hx, hy]

namespace ObjectStore

variable (fc : FragmentCodec)

/-- Where the fragment of a key is. -/
def key_path (key : String) : Path :=
  .file .fragments (String.ofList (key.toList.take 2)) (String.ofList (key.toList.drop 2))

theorem fragment_path_eq {key : String} (h : IsKey key) : fragment_path key = .ok (key_path key) := by
  rw [fragment_path, object_path_of_key h]
  rfl

theorem key_path_inj {key key' : String} (h : key_path key = key_path key') : key = key' := by
  simp only [key_path, Path.file.injEq, String.ofList_inj, true_and] at h
  apply String.toList_inj.mp
  rw [← List.take_append_drop 2 key.toList, h.1, h.2, List.take_append_drop]

theorem regular_key_path {key : String} (h : IsKey key) : Regular (key_path key) := by
  intro p heq
  cases p with
  | ref name => cases heq
  | file a head rest =>
    simp only [key_path, Path.tmp, Path.file.injEq] at heq
    apply hex_not_tmp _ heq.2.2
    intro x hx
    rw [String.toList_ofList] at hx
    exact h.2 x (List.mem_of_mem_drop hx)

/-- The fragments that can be read, as a table. -/
def table (files : StoreFiles (List UInt8)) : FragmentTable := fun key =>
  ((files (key_path key)).bind fc.open_fragment).map fun sf => ⟨key, sf.lang, sf.frontend_version, sf.bytes⟩

theorem fragment_eq {files : StoreFiles (List UInt8)} {key : String} (h : IsKey key) :
    fragment fc files key = .ok (table fc files key) := by
  rw [fragment, fragment_path_eq h]
  rfl

/-- Writing a fragment does to the table what inserting its row does. -/
theorem put_fragment_table (files : StoreFiles (List UInt8)) {f : FragmentInput} (hf : IsKey f.key) :
    ∃ files', put_fragment fc files f = .ok files' ∧
      ∀ key, IsKey key → table fc files' key = SqliteStore.put_fragment (table fc files) f key := by
  have hput : put_fragment fc files f =
      if ((files (key_path f.key)).bind fc.open_fragment).any fun sf => sf.frontend_version = f.frontend_version
      then .ok files
      else .ok (files.run (write_tmp_then_rename (key_path f.key)
        (fc.seal_fragment ⟨f.lang, f.frontend_version, f.bytes⟩))) := by
    rw [put_fragment, fragment_path_eq hf]
    rfl
  have hwrite : ∀ key, IsKey key →
      table fc (files.run (write_tmp_then_rename (key_path f.key)
        (fc.seal_fragment ⟨f.lang, f.frontend_version, f.bytes⟩))) key = update (table fc files) f.key (some f.row) key := by
    intro key hkey
    rw [table, run_write_tmp_then_rename _ (regular_key_path hkey)]
    by_cases h : key = f.key
    · subst h
      rw [if_pos rfl, update_self, Option.bind_some, fc.open_seal]
      rfl
    · rw [if_neg fun heq => h (key_path_inj heq), update_of_ne h, table]
  rw [hput, SqliteStore.put_fragment]
  cases hopen : (files (key_path f.key)).bind fc.open_fragment with
  | none =>
    refine ⟨_, if_neg (by simp), fun key hkey => ?_⟩
    rw [hwrite key hkey, table, hopen]
    rfl
  | some sf =>
    have hrow : table fc files f.key = some ⟨f.key, sf.lang, sf.frontend_version, sf.bytes⟩ := by
      rw [table, hopen]
      rfl
    by_cases hversion : sf.frontend_version = f.frontend_version
    · refine ⟨files, if_pos (by simpa using hversion), fun key _ => ?_⟩
      rw [hrow]
      dsimp only
      rw [if_pos hversion]
    · refine ⟨_, if_neg (by simpa using hversion), fun key hkey => ?_⟩
      rw [hwrite key hkey, hrow]
      dsimp only
      rw [if_neg hversion]

/-- A batch of writes does to the table what inserting the rows does. -/
theorem put_fragments_table {batch : List FragmentInput} (hbatch : ∀ f ∈ batch, IsKey f.key)
    (files : StoreFiles (List UInt8)) (rows : FragmentTable) (hrows : ∀ key, IsKey key → table fc files key = rows key) :
    ∃ files', put_fragments fc files batch = .ok files' ∧
      ∀ key, IsKey key → table fc files' key = SqliteStore.put_fragments rows batch key := by
  induction batch generalizing files rows with
  | nil => exact ⟨files, rfl, hrows⟩
  | cons f rest ih =>
    have hf := hbatch f List.mem_cons_self
    obtain ⟨after, hafter, htable⟩ := put_fragment_table fc files hf
    obtain ⟨files', hput, hfinal⟩ := ih (fun g hg => hbatch g (List.mem_cons_of_mem f hg)) after
      (SqliteStore.put_fragment rows f) (by
        intro key hkey
        rw [htable key hkey, SqliteStore.put_fragment, SqliteStore.put_fragment, hrows f.key hf]
        have hupdate : update (table fc files) f.key (some f.row) key = update rows f.key (some f.row) key := by
          by_cases h : key = f.key
          · rw [h, update_self, update_self]
          · rw [update_of_ne h, update_of_ne h, hrows key hkey]
        cases rows f.key with
        | none => exact hupdate
        | some row =>
          dsimp only
          split
          · exact hrows key hkey
          · exact hupdate)
    refine ⟨files', ?_, hfinal⟩
    rw [put_fragments, List.foldlM_cons, hafter]
    exact hput

end ObjectStore

/-! ### The three caches -/

/-- A table of fragments beside the rows of the functions. -/
structure Tables where
  fragments : FragmentTable
  fn_intraproc_cache : List FnRow

/-- The files of an object store beside the rows of the functions. -/
structure ObjectFiles where
  files : StoreFiles (List UInt8)
  fn_intraproc_cache : List FnRow

def object_cache (fc : FragmentCodec) : FactCache ObjectFiles where
  empty := ⟨fun _ => none, []⟩
  fragment s key := ObjectStore.fragment fc s.files key
  put_fragments s batch := (ObjectStore.put_fragments fc s.files batch).map fun files => { s with files := files }
  load_fn_intraproc_cache := ObjectFiles.fn_intraproc_cache
  put_fn_intraproc_cache s rows := { s with fn_intraproc_cache := rows }
  fragment_empty key hkey := by
    rw [ObjectStore.fragment_eq fc hkey]
    rfl
  fragment_total s key hkey := ⟨_, ObjectStore.fragment_eq fc hkey⟩
  put_total s batch hbatch := by
    obtain ⟨files', hput, _⟩ := ObjectStore.put_fragments_table fc hbatch s.files _ fun _ _ => rfl
    exact ⟨_, by rw [hput]; rfl⟩
  put_spec s batch s' key hbatch hkey hput := by
    obtain ⟨files', hfiles, htable⟩ := ObjectStore.put_fragments_table fc hbatch s.files _ fun _ _ => rfl
    rw [hfiles] at hput
    cases hput
    rw [ObjectStore.fragment_eq fc hkey, ObjectStore.fragment_eq fc hkey, htable key hkey]
    obtain ⟨hnew, hsame⟩ | ⟨row, hrow, hversion, horigin⟩ :=
      SqliteStore.inserts_put_fragment.batch batch (ObjectStore.table fc s.files) key
    · exact .inl ⟨hnew, congrArg Except.ok hsame⟩
    · exact .inr ⟨row, congrArg Except.ok hrow, hversion, horigin.imp_left (congrArg Except.ok)⟩
  fragment_put_fn _ _ _ := rfl

def sqlite_cache : FactCache Tables where
  empty := ⟨fun _ => none, []⟩
  fragment s key := .ok (s.fragments key)
  put_fragments s batch := .ok { s with fragments := SqliteStore.put_fragments s.fragments batch }
  load_fn_intraproc_cache := Tables.fn_intraproc_cache
  put_fn_intraproc_cache s rows := { s with fn_intraproc_cache := rows }
  fragment_empty _ _ := rfl
  fragment_total _ _ _ := ⟨_, rfl⟩
  put_total _ _ _ := ⟨_, rfl⟩
  put_spec s batch s' key _ _ hput := by
    cases hput
    obtain ⟨hnew, hsame⟩ | ⟨row, hrow, hversion, horigin⟩ :=
      SqliteStore.inserts_put_fragment.batch batch s.fragments key
    · exact .inl ⟨hnew, congrArg Except.ok hsame⟩
    · exact .inr ⟨row, congrArg Except.ok hrow, hversion, horigin.imp_left (congrArg Except.ok)⟩
  fragment_put_fn _ _ _ := rfl

/-- An overlay reads what it does not hold from its base, which it never writes. -/
def overlay_cache {β : Type} (base : FactCache β) : FactCache (Tables × β) where
  empty := (⟨fun _ => none, []⟩, base.empty)
  fragment s key :=
    match s.1.fragments key with
    | some row => .ok (some row)
    | none => base.fragment s.2 key
  put_fragments s batch := .ok ({ s.1 with fragments := OverlayStore.put_fragments s.1.fragments batch }, s.2)
  load_fn_intraproc_cache s := s.1.fn_intraproc_cache
  put_fn_intraproc_cache s rows := ({ s.1 with fn_intraproc_cache := rows }, s.2)
  fragment_empty := base.fragment_empty
  fragment_total s key hkey := by
    cases s.1.fragments key with
    | some row => exact ⟨_, rfl⟩
    | none => exact base.fragment_total s.2 key hkey
  put_total _ _ _ := ⟨_, rfl⟩
  put_spec s batch s' key _ _ hput := by
    cases hput
    dsimp only
    obtain ⟨hnew, hsame⟩ | ⟨row, hrow, hversion, horigin⟩ :=
      OverlayStore.inserts_put_fragment.batch batch s.1.fragments key
    · refine .inl ⟨hnew, ?_⟩
      rw [OverlayStore.put_fragments, hsame]
    · refine .inr ⟨row, ?_, hversion, horigin.imp_left fun hold => ?_⟩
      · rw [OverlayStore.put_fragments, hrow]
      · rw [hold]
  fragment_put_fn _ _ _ := rfl

/-! ### The caches side by side -/

/-- The batches of several index runs, one after the other. -/
def FactCache.put_all {σ : Type} (cache : FactCache σ) (batches : List (List FragmentInput)) : Except StoreError σ :=
  batches.foldlM cache.put_fragments cache.empty

/-- Inputs of one key and one frontend version are the same row. -/
def OneRowPerVersion (inputs : List FragmentInput) : Prop :=
  ∀ f ∈ inputs, ∀ f' ∈ inputs, f.key = f'.key → f.frontend_version = f'.frontend_version → f.row = f'.row

/-- The row under a key is one of the inputs. -/
def FromInputs (inputs : List FragmentInput) (table : FragmentTable) : Prop :=
  ∀ key row, table key = some row → ∃ f ∈ inputs, f.key = key ∧ f.row = row

theorem sqlite_put_all (batches : List (List FragmentInput)) (s : Tables) :
    batches.foldlM sqlite_cache.put_fragments s =
      .ok { s with fragments := SqliteStore.put_fragments s.fragments batches.flatten } := by
  induction batches generalizing s with
  | nil => rfl
  | cons batch rest ih =>
    rw [List.foldlM_cons, List.flatten_cons, SqliteStore.put_fragments, List.foldl_append]
    exact ih { s with fragments := SqliteStore.put_fragments s.fragments batch }

theorem overlay_put_all {β : Type} (base : FactCache β) (batches : List (List FragmentInput)) (s : Tables × β) :
    batches.foldlM (overlay_cache base).put_fragments s =
      .ok ({ s.1 with fragments := OverlayStore.put_fragments s.1.fragments batches.flatten }, s.2) := by
  induction batches generalizing s with
  | nil => rfl
  | cons batch rest ih =>
    rw [List.foldlM_cons, List.flatten_cons, OverlayStore.put_fragments, List.foldl_append]
    exact ih ({ s.1 with fragments := OverlayStore.put_fragments s.1.fragments batch }, s.2)

theorem object_put_all (fc : FragmentCodec) {batches : List (List FragmentInput)}
    (hkeys : ∀ batch ∈ batches, ∀ f ∈ batch, IsKey f.key) (s : ObjectFiles) {rows : FragmentTable}
    (hrows : ∀ key, IsKey key → ObjectStore.table fc s.files key = rows key) :
    ∃ s', batches.foldlM (object_cache fc).put_fragments s = .ok s' ∧
      ∀ key, IsKey key → ObjectStore.table fc s'.files key = SqliteStore.put_fragments rows batches.flatten key := by
  induction batches generalizing s rows with
  | nil => exact ⟨s, rfl, hrows⟩
  | cons batch rest ih =>
    obtain ⟨files', hput, htable⟩ :=
      ObjectStore.put_fragments_table fc (hkeys batch List.mem_cons_self) s.files rows hrows
    obtain ⟨s', hrest, hfinal⟩ := ih (fun b hb => hkeys b (List.mem_cons_of_mem batch hb))
      { s with files := files' } htable
    have hfirst : (object_cache fc).put_fragments s batch = .ok { s with files := files' } := by
      change (ObjectStore.put_fragments fc s.files batch).map _ = _
      rw [hput]
      rfl
    refine ⟨s', ?_, ?_⟩
    · rw [List.foldlM_cons, hfirst]
      exact hrest
    · rw [List.flatten_cons, SqliteStore.put_fragments, List.foldl_append]
      exact hfinal

/-- Keeping the row of a version and replacing it come to the same when a version has one row. -/
theorem put_fragments_agree {inputs all : List FragmentInput} (hone : OneRowPerVersion all)
    (hsub : ∀ f ∈ inputs, f ∈ all) {table : FragmentTable} (hfrom : FromInputs all table) :
    OverlayStore.put_fragments table inputs = SqliteStore.put_fragments table inputs := by
  induction inputs generalizing table with
  | nil => rfl
  | cons f rest ih =>
    have hf : f ∈ all := hsub f List.mem_cons_self
    have hput : OverlayStore.put_fragment table f = SqliteStore.put_fragment table f := by
      rw [OverlayStore.put_fragment, SqliteStore.put_fragment]
      cases hrow : table f.key with
      | none => rfl
      | some row =>
        dsimp only
        split
        · rename_i hversion
          obtain ⟨g, hg, hgkey, rfl⟩ := hfrom f.key row hrow
          have hsame : f.row = g.row := hone f hf g hg hgkey.symm hversion.symm
          rw [hsame, ← hrow, update_eq_self]
        · rfl
    have hkept : FromInputs all (SqliteStore.put_fragment table f) := by
      intro key row hrow
      obtain ⟨_, hsame⟩ | ⟨hkey, row', hrow', _, horigin⟩ := SqliteStore.inserts_put_fragment table f key
      · exact hfrom key row (hsame ▸ hrow)
      · obtain rfl : row' = row := Option.some.inj (hrow'.symm.trans hrow)
        obtain hold | rfl := horigin
        · exact hfrom key row' hold
        · exact ⟨f, hf, hkey, rfl⟩
    rw [OverlayStore.put_fragments, SqliteStore.put_fragments, List.foldl_cons, List.foldl_cons, hput]
    exact ih (fun g hg => hsub g (List.mem_cons_of_mem f hg)) hkept

/-- After any batches the object store and the table store read the same fragments, and so
does an overlay on an empty base if the inputs of one key and version are the same. -/
theorem stores_agree_on_fragments {β : Type} (fc : FragmentCodec) (base : FactCache β)
    {batches : List (List FragmentInput)} (hkeys : ∀ batch ∈ batches, ∀ f ∈ batch, IsKey f.key) :
    ∃ objects tables overlay, (object_cache fc).put_all batches = .ok objects ∧
      sqlite_cache.put_all batches = .ok tables ∧ (overlay_cache base).put_all batches = .ok overlay ∧
      ∀ key, IsKey key → (object_cache fc).fragment objects key = sqlite_cache.fragment tables key ∧
        (OneRowPerVersion batches.flatten →
          (overlay_cache base).fragment overlay key = sqlite_cache.fragment tables key) := by
  have hempty : ∀ key, IsKey key → ObjectStore.table fc (object_cache fc).empty.files key = sqlite_cache.empty.fragments key :=
    fun _ _ => rfl
  obtain ⟨objects, hobjects, htable⟩ := object_put_all fc hkeys (object_cache fc).empty hempty
  refine ⟨objects, _, _, hobjects, sqlite_put_all batches sqlite_cache.empty,
    overlay_put_all base batches (overlay_cache base).empty, ?_⟩
  intro key hkey
  constructor
  · have hread : (object_cache fc).fragment objects key = _ := ObjectStore.fragment_eq fc hkey
    rw [htable key hkey] at hread
    exact hread
  · intro hone
    have hnone : FromInputs batches.flatten fun _ => none := by
      intro key row hrow
      cases hrow
    have hagree := put_fragments_agree hone (fun f hf => hf) hnone
    have hempty : base.fragment base.empty key = .ok none := base.fragment_empty key hkey
    simp only [overlay_cache, sqlite_cache, hagree]
    cases SqliteStore.put_fragments (fun _ => none) batches.flatten key with
    | none => exact hempty
    | some row => rfl

/-- Two frontend versions of one fragment, in two runs. -/
def two_versions : List (List FragmentInput) :=
  [[⟨"0a4d55a8d778e5022fab701977c5d840bbc486d0", "rust", 1, [7]⟩],
    [⟨"0a4d55a8d778e5022fab701977c5d840bbc486d0", "rust", 2, [8]⟩]]

/-- The digests of the two stored fragments. -/
def two_digests (bytes : List UInt8) : List UInt8 :=
  if bytes = [4, 114, 117, 115, 116, 1, 1, 7] then
    [248, 90, 6, 109, 206, 77, 236, 163, 64, 51, 235, 147, 138, 139, 90, 171, 227, 218, 229, 170]
  else
    [247, 101, 190, 166, 194, 183, 186, 60, 52, 182, 89, 148, 212, 187, 247, 32, 50, 133, 145, 31]

theorem two_digests_length (bytes : List UInt8) : (two_digests bytes).length = SHA1_LEN := by
  rw [two_digests]
  split <;> rfl

theorem two_versions_keys : ∀ batch ∈ two_versions, ∀ f ∈ batch, IsKey f.key := by
  have hkeys : ∀ batch ∈ two_versions, ∀ f ∈ batch,
      f.key.toList.length = 40 ∧ f.key.toList.all is_hex = true := by
    decide
  intro batch hbatch f hf
  obtain ⟨hlength, hall⟩ := hkeys batch hbatch f hf
  exact ⟨hlength, List.all_eq_true.mp hall⟩

theorem two_versions_rows : OneRowPerVersion two_versions.flatten := by
  unfold OneRowPerVersion
  decide

theorem stores_agree_on_two_versions :
    ∃ objects tables overlay,
      (object_cache (.of_digest two_digests two_digests_length)).put_all two_versions = .ok objects ∧
      sqlite_cache.put_all two_versions = .ok tables ∧
      (overlay_cache sqlite_cache).put_all two_versions = .ok overlay ∧
      ∀ key, IsKey key →
        (object_cache (.of_digest two_digests two_digests_length)).fragment objects key = sqlite_cache.fragment tables key ∧
        (overlay_cache sqlite_cache).fragment overlay key = sqlite_cache.fragment tables key := by
  obtain ⟨objects, tables, overlay, hobjects, htables, hoverlay, hagree⟩ :=
    stores_agree_on_fragments (.of_digest two_digests two_digests_length) sqlite_cache two_versions_keys
  refine ⟨objects, tables, overlay, hobjects, htables, hoverlay, fun key hkey => ?_⟩
  obtain ⟨hobject, hover⟩ := hagree key hkey
  exact ⟨hobject, hover two_versions_rows⟩

end cgx.store
