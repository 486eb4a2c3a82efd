import Iec61850.Mms.Services
import Iec61850.Server.Files
import Iec61850.Theory.Paging

/-!
# Listings

`GetNameList`, `GetCapabilityList` and `FileDirectory`: the pages of `server/acsi.rs` and the loops of
`client/mod.rs` and `client/files.rs` that ask for one after the other. A page goes on behind the last
name the client was given, and takes entries as long as its budget covers them.
-/

namespace Iec61850.Mms

open Theory Ber
open Server (slash)

/-! ### File names -/

/-- `FileNameBuf::from_path`: one component that holds the whole path. -/
def FileName.fromPath (path : Bytes) : Except Error FileName :=
  visibleString (Tag.universal universalGraphicString false) path

/-- A string the encoders take: ASCII, and no longer than a length can say. -/
def Sendable (s : Bytes) : Prop := isAscii s = true ∧ s.length ≤ u32Max

theorem Sendable.visibleString {s : Bytes} (h : Sendable s) (tag : Tag) :
    visibleString tag s = .ok (element tag s) := by
  obtain ⟨bs, hbs, -⟩ := @fits_primitive tag s _ (Nat.le_refl _) h.2
  rw [Ber.visibleString, if_pos h.1, hbs, (primitive_ok hbs).2]

/-- `FileName::parse`, of a name that is one of the other side's. -/
def FileName.read (limits : Limits) (name : FileName) : Except Error FileName :=
  FileName.parse (tlvAt 0 (Tag.contextConstructed 0) name) limits

/-- The values in front of the first failure. -/
def okWhile {α : Type} : List (Except Error α) → List α
  | .ok a :: rest => a :: okWhile rest
  | _ => []

def FileName.components (name : FileName) : List Bytes :=
  okWhile ((Cursor.new name).items.map fun item => item >>= Tlv.visibleString)

def FileName.display (name : FileName) : Bytes := [slash].intercalate (FileName.components name)

/-- A path that can be sent is shown as it was, and read if it is no longer than a string may be. -/
theorem Sendable.display {path : Bytes} (h : Sendable path) :
    ∃ name, FileName.fromPath path = .ok name ∧ FileName.display name = path ∧
      ∀ limits : Limits, path.length ≤ limits.maxPrimitiveLen →
        FileName.read limits name = .ok name := by
  have htag : (Tag.universal universalGraphicString false).number ≤ u32Max := by decide
  have hfitting : ∀ e ∈ [((Tag.universal universalGraphicString false), path)], Fitting e := by
    intro e he
    rw [List.mem_singleton] at he
    subst he
    exact ⟨htag, h.2⟩
  have hitems : ∀ offset, Cursor.items ⟨element (Tag.universal universalGraphicString false) path,
      offset⟩ = [.ok (tlvAt offset (Tag.universal universalGraphicString false) path)] := by
    intro offset
    have hall := items_elements hfitting offset
    rwa [elements_cons, elements_nil, List.append_nil] at hall
  have hread : ∀ offset, (tlvAt offset (Tag.universal universalGraphicString false)
      path).visibleString = .ok path := by
    intro offset
    rw [Tlv.visibleString, tlvAt_value, if_pos h.1]
  refine ⟨_, h.visibleString _, ?_, ?_⟩
  · rw [FileName.display, FileName.components, Cursor.new, hitems]
    simp only [List.map_cons, List.map_nil, bind, Except.bind, hread, okWhile]
    simp
  · intro limits hlimit
    rw [FileName.read, FileName.parse, forItems, Tlv.children, tlvAt_value, hitems,
      List.foldlM_cons]
    dsimp only [bind, Except.bind]
    rw [tlvAt_value, if_neg (Nat.not_lt.mpr hlimit), hread]
    rfl

end Iec61850.Mms

namespace Iec61850.Server

open Theory Ber Mms

/-! ### Pages -/

/-- `Answer::from_page`: a name takes two octets besides its own. -/
def fromPage (all : List Bytes) (after : Option Bytes) (budget : Nat) : List Bytes × Bool :=
  resume id (fun name => name.length + 2) budget all after

/-- What a file takes of a page. -/
def FileInfo.cost (f : FileInfo) : Nat := f.name.length + (f.modified.map List.length).getD 0 + 16

/-- `file_directory`, over the files the store lists. -/
def fileDirectory (all : List FileInfo) (continueAfter : Option Bytes) (budget : Nat) :
    List FileInfo × Bool := resume FileInfo.name FileInfo.cost budget all continueAfter

/-- What the listing services of a server answer from: the limits it reads requests with, the names of
each class and scope, the capabilities and files, and the budgets of an association's pages and of the
server's own. -/
structure Listings where
  limits : Limits
  names : Int → ObjectScope → Except Error (List Bytes)
  capabilities : List Bytes
  files : Option Bytes → List FileInfo
  pageBudget : Nat
  nameListBudget : Nat

/-- The entry of a file in an answer; both of its strings have to be sent. -/
def FileInfo.toEntry (f : FileInfo) : Except Error DirectoryEntry := do
  let name ← FileName.fromPath f.name
  let _ ← f.modified.mapM (visibleString (Tag.context 1))
  .ok ⟨name, ⟨f.size, f.modified⟩⟩

/-- What `Acsi::request` answers to the listing services. An answer with a string that cannot be
encoded is never sent. -/
def Listings.request (l : Listings) : ConfirmedRequest → Except Error ConfirmedResponse
  | .getNameList objectClass scope continueAfter => do
      let all ← l.names objectClass scope
      let (names, more) := fromPage all continueAfter l.pageBudget
      let _ ← names.mapM (visibleString tagIdentifier)
      .ok (.getNameList names more)
  | .getCapabilityList continueAfter => do
      let (names, more) := fromPage l.capabilities continueAfter l.pageBudget
      let _ ← names.mapM (visibleString tagIdentifier)
      .ok (.getCapabilityList names more)
  | .fileDirectory specification continueAfter => do
      let specification ← specification.mapM (FileName.read l.limits)
      let continueAfter ← continueAfter.mapM (FileName.read l.limits)
      let (files, more) := fileDirectory (l.files (specification.map FileName.display))
        (continueAfter.map FileName.display) l.nameListBudget
      let entries ← files.mapM FileInfo.toEntry
      .ok (.fileDirectory entries more)
  | _ => .error (.invalidValue "not a listing")

end Iec61850.Server

namespace Iec61850.Client

open Theory Mms Server

/-! ### The loops of the client -/

/-- The items of a list in a response, of which `Mms::parse` reads so many. -/
def listed {α : Type} (limits : Limits) (items : List α) (more : Bool) :
    Except Error (List α × Bool) :=
  if items.length > limits.maxListItems then
    .error (.limitExceeded "max_list_items" (limits.maxListItems + 1))
  else .ok (items, more)

section Loops

variable (call : ConfirmedRequest → Except Error ConfirmedResponse) (limits : Limits)

/-- `Client::name_list`, for as many requests as `fuel`. -/
def nameList (objectClass : Int) (scope : ObjectScope) (fuel : Nat) :
    Option (Except Error (List Bytes)) :=
  collectPages (limits.maxDatasetMembers * 64) (.limitExceeded "GetNameList continuations")
    (fun out => do
      match ← call (.getNameList objectClass scope out.getLast?) with
      | .getNameList identifiers more => listed limits identifiers more
      | _ => .error (.invalidValue "not a GetNameList response")) fuel []

def capabilities (fuel : Nat) : Option (Except Error (List Bytes)) :=
  collectPages limits.maxDatasetMembers (.limitExceeded "max_dataset_members")
    (fun out => do
      match ← call (.getCapabilityList out.getLast?) with
      | .getCapabilityList names more => listed limits names more
      | _ => .error (.invalidValue "not a GetCapabilityList response")) fuel []

/-- What a client makes of the entry of a file: a `FileEntry` has the fields of a `FileInfo`. -/
def ofEntry (e : DirectoryEntry) : FileInfo :=
  ⟨FileName.display e.name, e.attributes.size, e.attributes.lastModified⟩

/-- `Client::file_directory`. -/
def listFiles (specification : Option Bytes) (fuel : Nat) : Option (Except Error (List FileInfo)) :=
  match specification.mapM FileName.fromPath with
  | .error e => some (.error e)
  | .ok spec =>
    collectPages (limits.maxDatasetMembers * 64) (.limitExceeded "FileDirectory continuations")
      (fun out => do
        let last ← out.getLast?.mapM fun e => FileName.fromPath e.name
        match ← call (.fileDirectory spec last) with
        | .fileDirectory entries more => do
            let _ ← entries.mapM fun e => FileName.read limits e.name
            listed limits (entries.map ofEntry) more
        | _ => .error (.invalidValue "not a FileDirectory response")) fuel []

end Loops

/-! ### Listing everything -/

/-- The strings of a file can be sent, and its name is read with the limits. -/
structure SendableFile (limits : Limits) (f : FileInfo) : Prop where
  name : Sendable f.name
  short : f.name.length ≤ limits.maxPrimitiveLen
  modified : ∀ m ∈ f.modified, Sendable m

/-- What is sent of files that can be sent is what they are. -/
theorem entries_sent {limits : Limits} {files : List FileInfo}
    (h : ∀ f ∈ files, SendableFile limits f) :
    ∃ entries, files.mapM FileInfo.toEntry = .ok entries ∧ entries.map ofEntry = files ∧
      ∃ names, (entries.mapM fun e => FileName.read limits e.name) = .ok names := by
  induction files with
  | nil => exact ⟨[], rfl, rfl, [], rfl⟩
  | cons f files ih =>
    obtain ⟨hf, hrest⟩ := List.forall_mem_cons.mp h
    obtain ⟨name, hname, hshown, hread⟩ := hf.name.display
    obtain ⟨entries, hentries, hmap, names, hnames⟩ := ih hrest
    have hmade : f.toEntry = .ok ⟨name, ⟨f.size, f.modified⟩⟩ := by
      rw [FileInfo.toEntry, hname]
      cases hm : f.modified with
      | none => rfl
      | some m =>
        rw [Option.mapM_some, (hf.modified m hm).visibleString]
        rfl
    refine ⟨⟨name, ⟨f.size, f.modified⟩⟩ :: entries, ?_, ?_, name :: names, ?_⟩
    · rw [List.mapM_cons, hmade, hentries]
      rfl
    · rw [List.map_cons, hmap, ofEntry, hshown]
    · rw [List.mapM_cons, hread limits hf.short, hnames]
      rfl

theorem names_sent {names : List Bytes} (h : ∀ s ∈ names, Sendable s) (tag : Ber.Tag) :
    ∃ octets, names.mapM (Ber.visibleString tag) = .ok octets := by
  induction names with
  | nil => exact ⟨[], rfl⟩
  | cons s names ih =>
    obtain ⟨hs, hrest⟩ := List.forall_mem_cons.mp h
    obtain ⟨octets, hoctets⟩ := ih hrest
    refine ⟨Ber.element tag s :: octets, ?_⟩
    rw [List.mapM_cons, hs.visibleString, hoctets]
    rfl

/-- Behind what a client has of a list of names comes a page of the rest. -/
theorem fromPage_isPage {all done rest : List Bytes} (hall : all = done ++ rest) (h : all.Nodup)
    (budget : Nat) :
    IsPage (fun name => name.length + 2) budget rest (fromPage all done.getLast? budget).1
      (fromPage all done.getLast? budget).2 := by
  have hkeys : (all.map id).Nodup := by rwa [List.map_id]
  have hpage : IsPage (fun name : Bytes => name.length + 2) budget rest
      (fromPage all (done.getLast?.map id) budget).1
      (fromPage all (done.getLast?.map id) budget).2 := isPage_resume hall hkeys
  rwa [Option.map_id] at hpage

/-- Behind what a client has of a list of files comes a page of the rest. -/
theorem fileDirectory_isPage {all done rest : List FileInfo} (hall : all = done ++ rest)
    (h : (all.map FileInfo.name).Nodup) (budget : Nat) :
    IsPage FileInfo.cost budget rest
      (fileDirectory all (done.getLast?.map FileInfo.name) budget).1
      (fileDirectory all (done.getLast?.map FileInfo.name) budget).2 := isPage_resume hall h

/-- A page has nothing that the list does not have. -/
theorem page_part {α : Type} {P : α → Prop} {all done rest taken : List α} {more : Bool}
    {cost : α → Nat} {budget max : Nat} (h : ∀ a ∈ all, P a) (hmax : all.length ≤ max)
    (hall : all = done ++ rest) (hpage : IsPage cost budget rest taken more) :
    (∀ a ∈ taken, P a) ∧ taken.length ≤ max := by
  obtain ⟨tail, htail, -⟩ := hpage.splits
  subst htail
  subst hall
  constructor
  · intro a ha
    apply h a
    simp [ha]
  · simp only [List.length_append] at hmax
    omega

theorem listed_ok {α : Type} {limits : Limits} {items : List α} (more : Bool)
    (h : items.length ≤ limits.maxListItems) : listed limits items more = .ok (items, more) :=
  if_neg (Nat.not_lt.mpr h)

section Listed

variable (l : Listings) (limits : Limits)

theorem nameList_all {objectClass : Int} {scope : ObjectScope} {all : List Bytes}
    (hall : l.names objectClass scope = .ok all) (h : all.Nodup) (hsend : ∀ s ∈ all, Sendable s)
    (hitems : all.length ≤ limits.maxListItems)
    (hcap : all.length ≤ limits.maxDatasetMembers * 64) :
    nameList l.request limits objectClass scope (all.length + 1) = some (.ok all) := by
  refine collectPages_all (fun name => name.length + 2) l.pageBudget ?_ hcap
  intro done rest hsplit
  have hpage := fromPage_isPage hsplit h l.pageBudget
  obtain ⟨hpart, hfew⟩ := page_part hsend hitems hsplit hpage
  obtain ⟨octets, hoctets⟩ := names_sent hpart tagIdentifier
  refine ⟨_, _, ?_, hpage⟩
  rw [Listings.request, hall]
  dsimp only [bind, Except.bind]
  rw [hoctets]
  exact listed_ok _ hfew

theorem capabilities_all (h : l.capabilities.Nodup) (hsend : ∀ s ∈ l.capabilities, Sendable s)
    (hitems : l.capabilities.length ≤ limits.maxListItems)
    (hcap : l.capabilities.length ≤ limits.maxDatasetMembers) :
    capabilities l.request limits (l.capabilities.length + 1) = some (.ok l.capabilities) := by
  refine collectPages_all (fun name => name.length + 2) l.pageBudget ?_ hcap
  intro done rest hsplit
  have hpage := fromPage_isPage hsplit h l.pageBudget
  obtain ⟨hpart, hfew⟩ := page_part hsend hitems hsplit hpage
  obtain ⟨octets, hoctets⟩ := names_sent hpart tagIdentifier
  refine ⟨_, _, ?_, hpage⟩
  rw [Listings.request]
  dsimp only [bind, Except.bind]
  rw [hoctets]
  exact listed_ok _ hfew

/-- A path that is there can be asked for. -/
theorem path_sent {limits : Limits} {path : Option Bytes}
    (h : ∀ s ∈ path, Sendable s ∧ s.length ≤ limits.maxPrimitiveLen) :
    ∃ name, path.mapM FileName.fromPath = .ok name ∧
      name.mapM (FileName.read limits) = .ok name ∧ name.map FileName.display = path := by
  cases path with
  | none => exact ⟨none, rfl, rfl, rfl⟩
  | some s =>
    obtain ⟨hs, hshort⟩ := h s rfl
    obtain ⟨n, hn, hshown, hread⟩ := hs.display
    refine ⟨some n, ?_, ?_, by rw [Option.map_some, hshown]⟩
    · rw [Option.mapM_some, hn]
      rfl
    · rw [Option.mapM_some, hread limits hshort]
      rfl

theorem listFiles_all {specification : Option Bytes}
    (hspec : ∀ s ∈ specification, Sendable s ∧ s.length ≤ l.limits.maxPrimitiveLen)
    (h : ((l.files specification).map FileInfo.name).Nodup)
    (hsend : ∀ f ∈ l.files specification, SendableFile l.limits f ∧ SendableFile limits f)
    (hitems : (l.files specification).length ≤ limits.maxListItems)
    (hcap : (l.files specification).length ≤ limits.maxDatasetMembers * 64) :
    listFiles l.request limits specification ((l.files specification).length + 1) =
      some (.ok (l.files specification)) := by
  obtain ⟨spec, hspec, hsread, hsshown⟩ := path_sent hspec
  rw [listFiles, hspec]
  refine collectPages_all FileInfo.cost l.nameListBudget ?_ hcap
  intro done rest hsplit
  have hlast : ∀ s ∈ done.getLast?.map FileInfo.name,
      Sendable s ∧ s.length ≤ l.limits.maxPrimitiveLen := by
    intro s hs
    obtain ⟨f, hf, rfl⟩ := Option.mem_map.mp hs
    have hfile := (hsend f (by
      rw [hsplit]
      exact List.mem_append_left _ (List.mem_of_getLast? hf))).1
    exact ⟨hfile.name, hfile.short⟩
  obtain ⟨last, hname, hlread, hlshown⟩ := path_sent hlast
  have hpage := fileDirectory_isPage hsplit h l.nameListBudget
  generalize hp : fileDirectory (l.files specification) (done.getLast?.map FileInfo.name)
    l.nameListBudget = p at hpage
  obtain ⟨files, more⟩ := p
  obtain ⟨hpart, hfew⟩ := page_part (fun f hf => (hsend f hf).2) hitems hsplit hpage
  obtain ⟨entries, hentries, hmap, names, hnames⟩ := entries_sent hpart
  refine ⟨files, more, ?_, hpage⟩
  have hmapM : (done.getLast?.mapM fun e => FileName.fromPath e.name) = .ok last := by
    rw [← hname]
    cases done.getLast? with
    | none => rfl
    | some e => rfl
  have hanswer : l.request (.fileDirectory spec last) = .ok (.fileDirectory entries more) := by
    rw [Listings.request, hsread, hlread]
    dsimp only [bind, Except.bind]
    rw [hsshown, hlshown, hp]
    dsimp only
    rw [hentries]
  rw [hmapM]
  dsimp only [bind, Except.bind]
  rw [hanswer]
  dsimp only
  rw [hnames]
  dsimp only
  rw [hmap]
  exact listed_ok _ hfew

end Listed

/-- Three names, one a page. -/
example : nameList (Listings.request
    ⟨.default, fun _ _ => .ok [ascii "a", ascii "bc", ascii "d"], [], fun _ => [], 0, 0⟩) .default 0
    .vmdSpecific 3 = some (.ok [ascii "a", ascii "bc", ascii "d"]) := by
  decide

/-- A store with one file, whose name is not ASCII. -/
def oneAccented : Listings :=
  ⟨.default, fun _ _ => .ok [], [], fun _ => [⟨[0xC3, 0xA9], 0, none⟩], 900, 900⟩

end Iec61850.Client
