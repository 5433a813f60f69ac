import Cgx.Lib.Framing
import Cgx.Frontend.Canonical

open framing

namespace cgx.frontend

/-- The kind of build manifest a file belongs to. -/
inductive ManifestKind where
  | Cargo
  | GoMod
  | PackageJson
  | PyProject
deriving DecidableEq

/-- What the nearest manifest declares about the module that owns a file. -/
structure ManifestInfo where
  kind : ManifestKind
  identity : Option String
  root_dir : String
deriving DecidableEq

/-- What the extraction of one file sees besides its bytes. -/
structure FileCtx where
  path : String
  blob_oid : String
  package : Option String
  manifest : Option ManifestInfo
deriving DecidableEq

/-! ### The bytes that name a context -/

/-- The bytes of a text behind their number, a 64-bit little-endian word. -/
def put_str (s : String) : List UInt8 :=
  counted 8 s.toUTF8.data.toList

def put_opt_str : Option String → List UInt8 :=
  optional put_str

def ManifestKind.tag : ManifestKind → UInt8
  | .Cargo => 0
  | .GoMod => 1
  | .PackageJson => 2
  | .PyProject => 3

def put_manifest (m : ManifestInfo) : List UInt8 :=
  m.kind.tag :: (put_opt_str m.identity ++ put_str m.root_dir)

/-- The canonical bytes of every field of a context. -/
def FileCtx.cache_identity (ctx : FileCtx) : List UInt8 :=
  put_str ctx.blob_oid ++ (put_str ctx.path ++ (put_opt_str ctx.package ++ optional put_manifest ctx.manifest))

/-! ### Different contexts have different bytes -/

/-- The length of a text is a machine word. -/
def Fits (s : String) : Prop :=
  s.utf8ByteSize < 2 ^ 64

def ManifestInfo.Fits (m : ManifestInfo) : Prop :=
  All frontend.Fits m.identity ∧ frontend.Fits m.root_dir

/-- The lengths of all texts of a context are machine words. -/
structure FileCtx.Fits (ctx : FileCtx) : Prop where
  blob_oid : frontend.Fits ctx.blob_oid
  path : frontend.Fits ctx.path
  package : All frontend.Fits ctx.package
  manifest : All ManifestInfo.Fits ctx.manifest

theorem toUTF8_inj {s t : String} (h : s.toUTF8.data.toList = t.toUTF8.data.toList) : s = t :=
  String.toByteArray_inj.mp (ByteArray.ext (Array.toList_inj.mp h))

theorem framed_put_str : Framed Fits put_str := by
  have h := (framed_counted 8).comap (f := fun s : String => s.toUTF8.data.toList) fun _ _ => toUTF8_inj
  intro s t hs ht
  apply h
  · rw [Array.length_toList, ByteArray.size_data]
    exact hs
  · rw [Array.length_toList, ByteArray.size_data]
    exact ht

theorem framed_put_opt_str : Framed (All Fits) put_opt_str :=
  framed_put_str.optional

theorem ManifestKind.tag_inj {k l : ManifestKind} (h : k.tag = l.tag) : k = l := by
  cases k <;> cases l <;> first | rfl | cases h

theorem framed_put_manifest : Framed ManifestInfo.Fits put_manifest := by
  rintro ⟨kind, identity, root_dir⟩ ⟨kind', identity', root_dir'⟩ hm hm' s t h
  obtain ⟨htag, hrest⟩ := List.cons.inj h
  obtain ⟨heq, hend⟩ := framed_put_opt_str.both framed_put_str (x := (identity, root_dir)) (y := (identity', root_dir'))
    hm hm' hrest
  have hkind : kind = kind' := ManifestKind.tag_inj htag
  cases heq
  rw [hkind]
  exact ⟨rfl, hend⟩

/-- The bytes of a context tell every field of it. -/
theorem cache_identity_inj {ctx ctx' : FileCtx} (hfits : ctx.Fits) (hfits' : ctx'.Fits)
    (h : ctx.cache_identity = ctx'.cache_identity) : ctx = ctx' := by
  obtain ⟨path, blob_oid, package, manifest⟩ := ctx
  obtain ⟨path', blob_oid', package', manifest'⟩ := ctx'
  obtain ⟨rfl, hpath⟩ := framed_put_str hfits.blob_oid hfits'.blob_oid h
  obtain ⟨rfl, hpackage⟩ := framed_put_str hfits.path hfits'.path hpath
  obtain ⟨rfl, hmanifest⟩ := framed_put_opt_str hfits.package hfits'.package hpackage
  cases framed_put_manifest.optional.inj hfits.manifest hfits'.manifest hmanifest
  rfl

/-- An extraction that cannot proceed. -/
inductive FrontendError where
  | Parser (lang detail : String)
  | InvalidSource (path detail : String)
  | Extraction (path detail : String)
deriving DecidableEq

/-- A language frontend: the files it claims, the version of its rules, and its extraction.
What it extracts from a file depends on the bytes and the context of the file only. -/
structure LanguageFrontend where
  lang : String
  handles : String → Bool
  fragment_version : UInt32
  extract : List UInt8 → FileCtx → Except FrontendError facts.FileFacts

/-- The registered frontends in the order they are asked, and the one for all other files. -/
structure FrontendRegistry where
  frontends : List LanguageFrontend
  fallback : LanguageFrontend

namespace FrontendRegistry

variable (r : FrontendRegistry)

/-- The first frontend that claims the path, or the fallback. -/
def frontend_for (path : String) : LanguageFrontend :=
  (r.frontends.find? fun fe => fe.handles path).getD r.fallback

/-- Whether a registered frontend claims the path. -/
def has_adapter_for (path : String) : Bool :=
  r.frontends.any fun fe => fe.handles path

/-- The facts of one file in canonical order. -/
def extract (src : List UInt8) (ctx : FileCtx) : Except FrontendError facts.FileFacts := do
  let facts ← (r.frontend_for ctx.path).extract src ctx
  .ok facts.canonicalize

def lang_for (path : String) : String :=
  (r.frontend_for path).lang

end FrontendRegistry

/-! ### The facts the linker reads -/

def facts.ImportFact.linked (i : facts.ImportFact) : frontend.ImportFact :=
  ⟨i.specifier, i.names, i.glob, i.re_export, i.scope⟩

def facts.ExportFact.linked (e : facts.ExportFact) : frontend.ExportFact :=
  ⟨e.name, e.alias_name, e.source⟩

def facts.FileFacts.linked (x : facts.FileFacts) : frontend.FileFacts :=
  ⟨x.defs, x.refs, x.impl_relations, x.imports.map facts.ImportFact.linked,
    x.exports.map facts.ExportFact.linked, x.scopes, x.entrypoint_hints, x.effects, x.data_flows⟩

end cgx.frontend
