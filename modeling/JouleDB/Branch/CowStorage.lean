import JouleDB.Lib.FiniteMap
import JouleDB.Storage.Page
import Mathlib.Logic.Function.Basic

/-!
# Copy-on-write branch storage

A branch keeps its own pages in an overlay over its parent, and remembers which pages it has freed.
A freed page stays freed, also when it is written again.
-/

namespace JouleDB.Branch

open Storage

abbrev PageId := Nat

/-- The pages of a store. -/
abbrev Pages := PageId → Option PageBody

/-- A branch over a parent store. -/
structure CowBranchStorage where
  parent : Pages
  overlay : FiniteMap PageId PageBody
  freed : Finset PageId
  nextPageId : PageId

/-- The calls that change a branch. -/
inductive PageCall where
  | allocatePage
  | writePage (pageId : PageId) (page : PageBody)
  | freePage (pageId : PageId)
  deriving DecidableEq

namespace CowBranchStorage

variable (storage : CowBranchStorage)

/-- A branch of a parent. -/
def new (parent : Pages) (nextPageId : PageId) : CowBranchStorage :=
  ⟨parent, ∅, ∅, nextPageId⟩

/-- Read a page: none if it was freed, else from the overlay or from the parent. -/
def readPage (pageId : PageId) : Option PageBody :=
  if pageId ∈ storage.freed then none
  else match storage.overlay[pageId]? with
    | some page => some page
    | none => storage.parent pageId

/-- Whether there is a page. -/
def pageExists (pageId : PageId) : Bool :=
  if pageId ∈ storage.freed then false
  else if storage.overlay.contains pageId then true
  else (storage.parent pageId).isSome

def writePage (pageId : PageId) (page : PageBody) : CowBranchStorage :=
  { storage with overlay := storage.overlay.insert pageId page }

/-- The id of a new page. -/
def allocatePage : PageId × CowBranchStorage :=
  (storage.nextPageId, { storage with nextPageId := storage.nextPageId + 1 })

def freePage (pageId : PageId) : CowBranchStorage :=
  { storage with
    overlay := storage.overlay.erase pageId
    freed := insert pageId storage.freed }

/-- Carry out a call. -/
def call : PageCall → CowBranchStorage
  | .allocatePage => storage.allocatePage.2
  | .writePage pageId page => storage.writePage pageId page
  | .freePage pageId => storage.freePage pageId

/-- The pages of the overlay, in any order. -/
def Modified (pages : List (PageId × PageBody)) : Prop :=
  ∀ pageId page, (pageId, page) ∈ pages ↔ storage.overlay[pageId]? = some page

/-- The freed pages, in any order. -/
def Freed (pageIds : List PageId) : Prop := ∀ pageId, pageId ∈ pageIds ↔ pageId ∈ storage.freed

end CowBranchStorage

namespace Pages

/-- Write pages to a store. -/
def writeAll (pages : Pages) (modified : List (PageId × PageBody)) : Pages :=
  modified.foldl (fun pages entry => Function.update pages entry.1 (some entry.2)) pages

/-- Remove pages from a store. -/
def removeAll (pages : Pages) (freed : List PageId) : Pages :=
  freed.foldl (fun pages pageId => Function.update pages pageId none) pages

/-- What a store of its own holds after a call. -/
def call (pages : Pages) : PageCall → Pages
  | .allocatePage => pages
  | .writePage pageId page => Function.update pages pageId (some page)
  | .freePage pageId => Function.update pages pageId none

variable {pages : Pages} {pageId : PageId}

theorem removeAll_apply (freed : List PageId) :
    pages.removeAll freed pageId = if pageId ∈ freed then none else pages pageId := by
  induction freed generalizing pages with
  | nil => rw [if_neg List.not_mem_nil, removeAll, List.foldl_nil]
  | cons first freed ih =>
      change (Pages.removeAll (Function.update pages first none) freed) pageId = _
      rw [ih]
      by_cases here : pageId = first
      · subst here
        simp
      · simp [here]

/-- Pages that are not among the written ones stay. -/
theorem writeAll_of_absent {modified : List (PageId × PageBody)}
    (absent : ∀ page, (pageId, page) ∉ modified) :
    pages.writeAll modified pageId = pages pageId := by
  induction modified generalizing pages with
  | nil => rfl
  | cons entry modified ih =>
      have other : pageId ≠ entry.1 := fun equal => absent entry.2 (by simp [equal])
      change (Pages.writeAll (Function.update pages entry.1 (some entry.2)) modified) pageId = _
      rw [ih fun page member => absent page (List.mem_cons_of_mem entry member),
        Function.update_of_ne other]

/-- A page that is among the written ones with one content has this content. -/
theorem writeAll_of_mem {modified : List (PageId × PageBody)} {page : PageBody}
    (member : (pageId, page) ∈ modified)
    (only : ∀ other, (pageId, other) ∈ modified → other = page) :
    pages.writeAll modified pageId = some page := by
  induction modified generalizing pages with
  | nil => exact absurd member List.not_mem_nil
  | cons entry modified ih =>
      change (Pages.writeAll (Function.update pages entry.1 (some entry.2)) modified) pageId = _
      by_cases later : (pageId, page) ∈ modified
      · exact ih later fun other among => only other (List.mem_cons_of_mem entry among)
      · obtain rfl : (pageId, page) = entry := (List.mem_cons.mp member).resolve_right later
        rw [writeAll_of_absent fun other among => later ?_, Function.update_self]
        rwa [only other (List.mem_cons_of_mem _ among)] at among

end Pages

namespace CowBranchStorage

variable {storage : CowBranchStorage} {parent pages : Pages} {pageId : PageId}

/-- Writing the modified pages to the parent and removing the freed ones gives what the branch
reads. -/
theorem merge_apply {modified : List (PageId × PageBody)} {freed : List PageId}
    (isModified : storage.Modified modified) (isFreed : storage.Freed freed) :
    (storage.parent.writeAll modified).removeAll freed pageId = storage.readPage pageId := by
  rw [Pages.removeAll_apply, readPage]
  simp only [isFreed pageId]
  congr 1
  cases found : storage.overlay[pageId]? with
  | some page =>
      refine Pages.writeAll_of_mem ((isModified pageId page).mpr found) fun other member => ?_
      have same := found.symm.trans ((isModified pageId other).mp member)
      exact (Option.some.inj same).symm
  | none =>
      refine Pages.writeAll_of_absent fun page member => ?_
      have same := found.symm.trans ((isModified pageId page).mp member)
      cases same

theorem pageExists_eq (pageId : PageId) :
    storage.pageExists pageId = (storage.readPage pageId).isSome := by
  rw [pageExists, readPage, Std.ExtTreeMap.contains_eq_isSome_getElem?]
  split
  next => rfl
  next => cases storage.overlay[pageId]? <;> rfl

/-- The branch shows some pages: to a reader, to who asks whether a page exists, and to a merge. -/
structure Shows (storage : CowBranchStorage) (parent pages : Pages) : Prop where
  read : ∀ pageId, storage.readPage pageId = pages pageId
  exists_ : ∀ pageId, storage.pageExists pageId = (storage.readPage pageId).isSome
  merged : ∀ modified freed, storage.Modified modified → storage.Freed freed →
    (parent.writeAll modified).removeAll freed = pages

/-- In every state of the branch it shows what a store of its own would hold. -/
def IsStore (parent : Pages) (nextPageId : PageId) (calls : List PageCall) : Prop :=
  ∀ front, front <+: calls →
    (front.foldl call (new parent nextPageId)).Shows parent (front.foldl Pages.call parent)

/-- The later call does not write the page that the first one freed. -/
def NotRewritten (first later : PageCall) : Prop :=
  ∀ pageId page, first = .freePage pageId → later ≠ .writePage pageId page

/-- What holds of a branch after some calls. -/
structure After (storage : CowBranchStorage) (parent : Pages) (calls : List PageCall) : Prop where
  parent : storage.parent = parent
  freed : ∀ pageId, pageId ∈ storage.freed ↔ PageCall.freePage pageId ∈ calls

theorem after_run (parent : Pages) (nextPageId : PageId) (calls : List PageCall) :
    (calls.foldl call (new parent nextPageId)).After parent calls := by
  induction calls using List.reverseRecOn with
  | nil => exact ⟨rfl, fun pageId => by simp [new]⟩
  | append_singleton calls last ih =>
      rw [List.foldl_concat]
      cases last with
      | allocatePage => exact ⟨ih.parent, fun pageId => by simp [call, allocatePage, ih.freed]⟩
      | writePage other page => exact ⟨ih.parent, fun pageId => by simp [call, writePage, ih.freed]⟩
      | freePage other =>
          exact ⟨ih.parent, fun pageId => by simp [call, freePage, ih.freed, or_comm, eq_comm]⟩

theorem shows_iff (isParent : storage.parent = parent) :
    storage.Shows parent pages ↔ ∀ pageId, storage.readPage pageId = pages pageId := by
  constructor
  · exact fun shows => shows.read
  · intro read
    refine ⟨read, pageExists_eq, fun modified freed isModified isFreed => ?_⟩
    funext pageId
    rw [← isParent, merge_apply isModified isFreed, read]

/-- A call that does not write a freed page changes what is read as it changes a store. -/
theorem readPage_call (read : ∀ pageId, storage.readPage pageId = pages pageId) (call : PageCall)
    (clean : ∀ pageId page, call = .writePage pageId page → pageId ∉ storage.freed)
    (pageId : PageId) : (storage.call call).readPage pageId = pages.call call pageId := by
  cases call with
  | allocatePage => exact read pageId
  | writePage other page =>
      have alive := clean other page rfl
      change (storage.writePage other page).readPage pageId =
        Function.update pages other (some page) pageId
      rw [readPage, writePage]
      dsimp only
      by_cases here : pageId = other
      · subst here
        rw [Function.update_self, if_neg alive, Std.ExtTreeMap.getElem?_insert_self]
      · rw [Function.update_of_ne here, ← read, readPage, Std.ExtTreeMap.getElem?_insert,
          if_neg fun same => here (Std.LawfulEqCmp.eq_of_compare same).symm]
  | freePage other =>
      change (storage.freePage other).readPage pageId = Function.update pages other none pageId
      rw [readPage, freePage]
      dsimp only
      by_cases here : pageId = other
      · subst here
        rw [Function.update_self, if_pos (Finset.mem_insert_self _ _)]
      · rw [Function.update_of_ne here, ← read, readPage, Std.ExtTreeMap.getElem?_erase,
          if_neg fun same => here (Std.LawfulEqCmp.eq_of_compare same).symm]
        simp only [Finset.mem_insert, here, false_or]

/-- A branch is a store of its own exactly if no page is written after it was freed. -/
theorem isStore_iff (parent : Pages) (nextPageId : PageId) (calls : List PageCall) :
    IsStore parent nextPageId calls ↔ calls.Pairwise NotRewritten := by
  induction calls using List.reverseRecOn with
  | nil =>
      refine iff_of_true ?_ List.Pairwise.nil
      intro front isFront
      rw [List.prefix_nil.mp isFront]
      exact (shows_iff rfl).mpr fun pageId => by simp [readPage, new]
  | append_singleton calls last ih =>
      have split : IsStore parent nextPageId (calls ++ [last]) ↔
          IsStore parent nextPageId calls ∧
            ((calls ++ [last]).foldl call (new parent nextPageId)).Shows parent
              ((calls ++ [last]).foldl Pages.call parent) := by
        constructor
        · exact fun all => ⟨fun front isFront => all front (isFront.trans (List.prefix_append _ _)),
            all _ (List.prefix_refl _)⟩
        · rintro ⟨early, late⟩ front isFront
          rcases List.prefix_concat_iff.mp isFront with rfl | isFront
          · exact late
          · exact early front isFront
      have after := after_run parent nextPageId calls
      have whole := after_run parent nextPageId (calls ++ [last])
      rw [split, ih, List.pairwise_append]
      simp only [List.pairwise_singleton, List.mem_singleton, forall_eq, true_and]
      refine and_congr_right fun orderly => ?_
      have shows := (ih.mpr orderly) calls (List.prefix_refl _)
      rw [shows_iff whole.parent]
      simp only [List.foldl_concat]
      constructor
      · rintro read _ earlier pageId page rfl rfl
        have freed := (after.freed pageId).mpr earlier
        have lost := read pageId
        rw [call, Pages.call, Function.update_self, readPage, writePage, if_pos freed] at lost
        cases lost
      · intro unwritten pageId
        refine readPage_call shows.read last (fun other page isWrite isFreed => ?_) pageId
        exact unwritten _ ((after.freed other).mp isFreed) other page rfl isWrite

/-- A page that is freed and written again is not read back. -/
theorem not_isStore :
    ¬IsStore (fun _ => none) 1 [.freePage 7, .writePage 7 (PageBody.withData .bTreeLeaf [1])] := by
  intro isStore
  have shows := isStore _ (List.prefix_refl _)
  have read := shows.read 7
  revert read
  decide

end CowBranchStorage

end JouleDB.Branch
