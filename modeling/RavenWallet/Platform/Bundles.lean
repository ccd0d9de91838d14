/-
  Updates of the asset bundles (BRAPIClient+Assets.swift).

  An update is a program: its requests are those to the file manager, to the server
  and to the completion handler.  Every answer is possible, and the answers to
  updates that run at the same time come in any order.  The paths belong to the
  bundle, whose name is left out of them; its version, and the versions that a
  response lists, are parameters.

  * `update_obeys`: an update completes once, as its last request, unless it throws
    after it has received a diff;
  * `Inv.step`: the group counts the updates that have not completed;
  * `updateBundles_iff`: when `updateBundles` completes.
-/
import Mathlib.Algebra.Order.BigOperators.Group.List
import Mathlib.Algebra.Order.Ring.Nat
import Mathlib.Algebra.Group.Action.Defs
import RavenWallet.Core.Types
import RavenWallet.Lib.Prog
import RavenWallet.Lib.Reach

namespace RavenWallet

namespace AssetArchive

/-! ## Requests -/

/-- An error. -/
inductive SwiftError where
  | nsError (domain : String) (code : ℤ)
  | malformedDataError
  | unknownError
  deriving DecidableEq, Repr

/-- The paths of a bundle. -/
inductive File where
  | bundleDir
  | extracted
  | archive
  | diff
  | old

/-- What may throw. -/
inductive FileOp where
  | attributesOfItem (f : File)
  | createDirectory (f : File)
  | removeItem (f : File)
  | copyBundled (dst : File)
  | write (data : Bytes) (f : File)
  | moveItem (src dst : File)
  | patch (oldFile newFile patchFile : File)
  | createFilesAndDirectories (dir tar : File)

/-- What the server is asked for. -/
inductive Route where
  | versions
  | download
  | diff (fromVersion : String)

/-- What a request to the server is answered with; there is a status if that is of HTTP. -/
structure Response where
  data : Option Bytes
  statusCode : Option ℤ
  err : Option SwiftError

inductive Req where
  | file (op : FileOp)
  | fileExists (f : File)
  | contents (f : File)
  | bundledArchive
  | bundleNames
  | dataTask (route : Route)
  | complete (err : Option SwiftError)

def Req.Res : Req → Type
  | file _ => Except SwiftError Unit
  | fileExists _ => Bool
  | contents _ => Option Bytes
  | bundledArchive => Bool
  | bundleNames => Option (List String)
  | dataTask _ => Response
  | complete _ => Unit

/-- The hash of an archive in hexadecimal digits, and the `versions` in a response. -/
structure Env where
  version : Bytes → String
  versions : Bytes → Option (List String)

abbrev Task := Prog Req.Res Unit

abbrev Event := Prog.Event Req.Res

/-! ## The functions -/

section
variable {α : Type}

/-- `try`, within a `do` with this `catch`. -/
def attempt (op : FileOp) (caught : SwiftError → Prog Req.Res α) (k : Prog Req.Res α) :
    Prog Req.Res α :=
  .req (.file op) fun
    | .ok _ => k
    | .error e => caught e

/-- `try?` -/
def tryOptional (op : FileOp) (k : Prog Req.Res α) : Prog Req.Res α := attempt op (fun _ => k) k

def ensureBundlePaths (caught : SwiftError → Prog Req.Res α) (k : Prog Req.Res α) :
    Prog Req.Res α :=
  attempt (.attributesOfItem .bundleDir)
    (fun _ => attempt (.createDirectory .bundleDir) caught <|
      attempt (.attributesOfItem .bundleDir) caught k) k

end

/-- `completionHandler(err)` -/
def complete (err : Option SwiftError) : Task := .req (.complete err) .ret

/-- The request is not authenticated. -/
def dataTaskWithRequest (route : Route)
    (handler : Option Bytes → Option ℤ → Option SwiftError → Task) : Task :=
  .req (.dataTask route) fun r : Response => handler r.data r.statusCode r.err

def getAssetVersions (env : Env) (handler : Option (List String) → Option SwiftError → Task) :
    Task :=
  dataTaskWithRequest .versions fun data _ err =>
    match err with
    | some err => handler none (some err)
    | none =>
      match data.bind env.versions with
      | some versions => handler (some versions) none
      | none => handler none (some .malformedDataError)

def downloadAsset (route : Route) (handler : Option Bytes → Option SwiftError → Task) : Task :=
  dataTaskWithRequest route fun data statusCode err =>
    match err with
    | some err => handler none (some err)
    | none =>
      if statusCode ≠ some 200 then handler none (some .unknownError)
      else
        match data with
        | some data => handler (some data) none
        | none => handler none (some .malformedDataError)

def downloadAssetArchive (handler : Option Bytes → Option SwiftError → Task) : Task :=
  downloadAsset .download handler

def downloadAssetDiff (fromVersion : String)
    (handler : Option Bytes → Option SwiftError → Task) : Task :=
  downloadAsset (.diff fromVersion) handler

def ensureExtractedPath (caught : SwiftError → Task) (k : Task) : Task :=
  .req (.fileExists .extracted) fun
    | true => k
    | false => attempt (.createDirectory .extracted) caught k

def extractArchive (caught : SwiftError → Task) (k : Task) : Task :=
  attempt (.createFilesAndDirectories .extracted .archive) caught k

def copyBundledArchive (k : Task) : Task :=
  .req .bundledArchive fun
    | true => attempt (.copyBundled .archive) (fun _ => k) k
    | false => k

def downloadCompleteArchive : Task :=
  downloadAssetArchive fun data err =>
    match err, data with
    | some err, _ => complete (some err)
    | none, none => complete (some .unknownError)
    | none, some data =>
      let caught e := complete (some e)
      attempt (.write data .archive) caught <|
        extractArchive caught <| complete none

/-- `if fm.fileExists(atPath: f) { try fm.removeItem(atPath: f) }` -/
def removeExisting (f : File) (caught : SwiftError → Task) (k : Task) : Task :=
  .req (.fileExists f) fun
    | true => attempt (.removeItem f) caught k
    | false => k

/-- The `catch` of `downloadAndPatchArchive`, which does not complete. -/
def cleanUp : Task :=
  tryOptional (.removeItem .diff) <|
    tryOptional (.removeItem .old) <|
      tryOptional (.removeItem .archive) <| .ret ()

def downloadAndPatchArchive (fromVersion : String) : Task :=
  downloadAssetDiff fromVersion fun data err =>
    match err, data with
    | some err, _ => complete (some err)
    | none, none => complete (some .unknownError)
    | none, some data =>
      let caught _ := cleanUp
      removeExisting .diff caught <|
        removeExisting .old caught <|
          attempt (.write data .diff) caught <|
            attempt (.moveItem .archive .old) caught <|
              attempt (.patch .old .archive .diff) caught <|
                attempt (.removeItem .diff) caught <|
                  attempt (.removeItem .old) caught <|
                    extractArchive caught <| complete none

/-- What `update` does with the versions that the server has. -/
def updateToLatest (env : Env) : Task :=
  getAssetVersions env fun versions err =>
    match err, versions with
    | some err, _ => complete (some err)
    | none, none => complete (some .unknownError)
    | none, some versions => .req (.contents .archive) fun archive : Option Bytes =>
      match archive.map env.version with
      | none => complete (some .unknownError)
      | some version =>
        if (versions.idxOf? version).map Int.ofNat = some ((versions.length : ℤ) - 1) then
          extractArchive (fun _ => complete (some .unknownError)) <| complete none
        else downloadAndPatchArchive version

/-- What `update` does when there is a directory to extract to. -/
def updateArchive (env : Env) : Task :=
  let latest : Task := .req (.fileExists .archive) fun
    | true => updateToLatest env
    | false => downloadCompleteArchive
  .req (.fileExists .archive) fun
    | true => latest
    | false => copyBundledArchive latest

/-- The directory could not be created, as a file has its path. -/
def SwiftError.isFileExisting : SwiftError → Bool
  | nsError domain code => code = 512 && domain = "NSCocoaErrorDomain"
  | _ => false

def update (env : Env) : Task :=
  ensureExtractedPath
    (fun e =>
      if e.isFileExisting then
        attempt (.removeItem .bundleDir) (fun e => complete (some e)) <|
          attempt (.createDirectory .extracted) (fun e => complete (some e)) <|
            updateArchive env
      else complete (some e)) <|
    updateArchive env

abbrev Results := List (String × Option SwiftError)

/-- The first part of `updateBundles`: what it completes with, or the names of the bundles. -/
def loadNames (staging : Bool) : Prog Req.Res (Except Results (List String)) :=
  ensureBundlePaths (fun e => .ret (.error [("INVALID", some e)])) <|
    .req .bundleNames fun
      | none => .ret (.error [("INVALID", some .unknownError)])
      | some names => .ret (.ok (if staging then names.map fun n => n ++ "-staging" else names))

/-! ## `updateBundles` -/

/-- An update that was started: what was answered, and what is left to do. -/
structure Update where
  events : List Event := []
  rest : Task

def Req.isDataTask : Req → Bool
  | dataTask _ => true
  | _ => false

/-- `update` returns before the server answers. -/
def Update.returned (u : Update) : Bool :=
  u.events.any (fun e => e.1.isDataTask) ||
    match u.rest with
    | .ret _ => true
    | .req op _ => op.isDataTask

/-- The queue has started the updates of the first bundles; it is `isOver` when it has waited for
    the group. -/
structure State where
  names : List String := []
  updates : List Update := []
  group : ℕ := 0
  results : Results
  isOver : Bool := false
  completions : List Results := []

inductive Op where
  | enter
  | answer (i : ℕ) (e : Event)
  | wait

/-- Steps of the queue, and answers to the updates; one that completes leaves the group, which must
    not be empty. -/
inductive Step (env : Env) : State → Op → State → Prop
  | enter {s : State} (hover : s.isOver = false) (hnext : s.updates.length < s.names.length)
      (hreturned : ∀ u ∈ s.updates, u.returned) :
      Step env s .enter
        { s with updates := s.updates ++ [{ rest := update env }], group := s.group + 1 }
  | answer {s : State} {i : ℕ} {t : List Event} {op : Req} {k : op.Res → Task}
      (hu : s.updates[i]? = some ⟨t, .req op k⟩) (hop : ∀ err, op ≠ .complete err) (r : op.Res) :
      Step env s (.answer i ⟨op, r⟩)
        { s with updates := s.updates.set i ⟨t ++ [⟨op, r⟩], k r⟩ }
  | leave {s : State} {i g : ℕ} {t : List Event} {err : Option SwiftError} {k : Unit → Task}
      {name : String} (hu : s.updates[i]? = some ⟨t, .req (.complete err) k⟩)
      (hname : s.names[i]? = some name) (hgroup : s.group = g + 1) :
      Step env s (.answer i ⟨.complete err, ()⟩)
        { s with updates := s.updates.set i ⟨t ++ [⟨.complete err, ()⟩], k ()⟩
                 results := s.results.set i (name, err)
                 group := g }
  | wait {s : State} (hover : s.isOver = false) (hnext : s.updates.length = s.names.length)
      (hreturned : ∀ u ∈ s.updates, u.returned) (hgroup : s.group = 0) :
      Step env s .wait { s with isOver := true, completions := s.completions ++ [s.results] }

/-- Where the queue starts, unless there is nothing to update. -/
def State.loaded : Except Results (List String) → State
  | .error results => { results, isOver := true, completions := [results] }
  | .ok names => { names, results := names.map fun n => (n, none) }

def updateBundles (env : Env) (staging : Bool) : System State Op where
  init s := ∃ t r, (loadNames staging).Leads t (.ret r) ∧ s = .loaded r
  step := Step env

/-! ## Completions -/

def isCompletion : Event → Bool
  | ⟨.complete _, _⟩ => true
  | _ => false

/-- A diff was received. -/
def isDiff : Event → Bool
  | ⟨.dataTask (.diff _), r⟩ => r.err.isNone && r.statusCode == some 200 && r.data.isSome
  | _ => false

def threw : Event → Bool
  | ⟨.file _, .error _⟩ => true
  | _ => false

/-- Something throws after a diff was received. -/
def DiffThrows (t : List Event) : Prop := ∃ e after, e :: after <:+ t ∧ isDiff e ∧ after.any threw

/-- How often the update has called its completion handler. -/
def Update.calls (u : Update) : ℕ := u.events.countP isCompletion

/-- Where an update is. -/
inductive Mode where
  | underway
  | patching
  | failed
  | completed
  deriving DecidableEq, Repr

def Mode.next (m : Mode) (e : Event) : Mode :=
  match m with
  | underway => if isCompletion e then completed else if isDiff e then patching else underway
  | patching => if isCompletion e then completed else if threw e then failed else patching
  | failed => failed
  | completed => completed

def Mode.calls : Mode → ℕ
  | completed => 1
  | _ => 0

/-- Whether an update fails, by its mode and what is still to come. -/
def Mode.Fails : Mode → List Event → Prop
  | underway, t => DiffThrows t
  | patching, t => t.any threw
  | failed, _ => True
  | completed, _ => False

/-- Nothing follows a completion, and an update that has failed does not complete. -/
def once : Prog.Automaton Req.Res Mode where
  next := Mode.next
  allows m op := m ≠ .completed ∧ (m = .failed → ∀ err, op ≠ .complete err)
  ends m := m = .failed ∨ m = .completed

section
variable {n : ℕ} {m : Mode} {p q : Task} {t : List Event}

theorem diffThrows_cons {e : Event} :
    DiffThrows (e :: t) ↔ (isDiff e ∧ t.any threw) ∨ DiffThrows t := by
  simp only [DiffThrows, List.suffix_cons_iff, List.cons.injEq]
  constructor
  · rintro ⟨x, after, ⟨rfl, rfl⟩ | hsuffix, hx, hany⟩
    · exact .inl ⟨hx, hany⟩
    · exact .inr ⟨x, after, hsuffix, hx, hany⟩
  · rintro (⟨he, hany⟩ | ⟨x, after, hsuffix, hx, hany⟩)
    · exact ⟨e, t, .inl ⟨rfl, rfl⟩, he, hany⟩
    · exact ⟨x, after, .inr hsuffix, hx, hany⟩

theorem not_diffThrows_nil : ¬ DiffThrows [] := by
  rintro ⟨e, after, hsuffix, -⟩
  exact List.cons_ne_nil _ _ (List.suffix_nil.1 hsuffix)

theorem DiffThrows.any_threw (h : DiffThrows t) : t.any threw := by
  obtain ⟨e, after, hsuffix, -, hany⟩ := h
  obtain ⟨x, hx, hthrew⟩ := List.any_eq_true.1 hany
  exact List.any_eq_true.2 ⟨x, hsuffix.subset (List.mem_cons_of_mem _ hx), hthrew⟩

/-- Nothing is left to do after a completion. -/
theorem nil_of_completed (h : p.Leads t q) (hp : p.Obeys once n .completed) : t = [] := by
  cases h with
  | refl => rfl
  | req _ =>
    cases n with
    | zero => exact hp.elim
    | succ n => exact absurd rfl hp.1.1

/-- The mode tells how often an update has completed. -/
theorem calls_eq (h : p.Leads t q) (hp : p.Obeys once n m) :
    m.calls + t.countP isCompletion = (t.foldl Mode.next m).calls := by
  induction h generalizing n m with
  | refl => rfl
  | @req op k r t q _ ih =>
    cases n with
    | zero => exact hp.elim
    | succ n =>
      obtain ⟨⟨hm, hfailed⟩, hk⟩ := hp
      have hk : (k r).Obeys once n (m.next ⟨op, r⟩) := hk r
      rw [List.foldl_cons, ← ih hk, List.countP_cons]
      have hnext : (m.next ⟨op, r⟩).calls = if isCompletion ⟨op, r⟩ then 1 else 0 := by
        cases m with
        | underway => simp only [Mode.next]; split_ifs <;> rfl
        | patching => simp only [Mode.next]; split_ifs <;> rfl
        | failed =>
          cases op with
          | complete err => exact absurd rfl (hfailed rfl err)
          | _ => rfl
        | completed => exact absurd rfl hm
      have hcalls : m.calls = 0 := by
        cases m with
        | completed => exact absurd rfl hm
        | _ => rfl
      omega

theorem not_isDiff {e : Event} (he : isCompletion e) : ¬ isDiff e := by
  obtain ⟨op, r⟩ := e
  cases op with
  | complete err => exact Bool.false_ne_true
  | _ => exact absurd he Bool.false_ne_true

theorem not_threw {e : Event} (he : isCompletion e) : ¬ threw e := by
  obtain ⟨op, r⟩ := e
  cases op with
  | complete err => exact Bool.false_ne_true
  | _ => exact absurd he Bool.false_ne_true

/-- The mode tells whether an update has failed. -/
theorem failed_iff (h : p.Leads t q) (hp : p.Obeys once n m) :
    t.foldl Mode.next m = .failed ↔ m.Fails t := by
  induction h generalizing n m with
  | refl => cases m <;> simp [Mode.Fails, not_diffThrows_nil]
  | @req op k r t q h ih =>
    cases n with
    | zero => exact hp.elim
    | succ n =>
      obtain ⟨⟨hm, -⟩, hk⟩ := hp
      have hk : (k r).Obeys once n (m.next ⟨op, r⟩) := hk r
      have hnil : m.next ⟨op, r⟩ = .completed → t = [] := fun hnext =>
        nil_of_completed h (hnext ▸ hk)
      rw [List.foldl_cons, ih hk]
      cases m with
      | underway =>
        rw [Mode.Fails.eq_1, diffThrows_cons]
        by_cases hcompletion : isCompletion ⟨op, r⟩
        · have hnext : Mode.underway.next ⟨op, r⟩ = .completed := if_pos hcompletion
          simp [hnext, hnil hnext, Mode.Fails, not_isDiff hcompletion, not_diffThrows_nil]
        by_cases hdiff : isDiff ⟨op, r⟩
        · have hnext : Mode.underway.next ⟨op, r⟩ = .patching :=
            (if_neg hcompletion).trans (if_pos hdiff)
          rw [hnext, Mode.Fails]
          exact ⟨fun hany => .inl ⟨hdiff, hany⟩, fun h => h.elim And.right DiffThrows.any_threw⟩
        · have hnext : Mode.underway.next ⟨op, r⟩ = .underway :=
            (if_neg hcompletion).trans (if_neg hdiff)
          simp [hnext, Mode.Fails, hdiff]
      | patching =>
        rw [Mode.Fails.eq_2, List.any_cons, Bool.or_eq_true]
        by_cases hcompletion : isCompletion ⟨op, r⟩
        · have hnext : Mode.patching.next ⟨op, r⟩ = .completed := if_pos hcompletion
          simp [hnext, hnil hnext, Mode.Fails, not_threw hcompletion]
        by_cases hthrew : threw ⟨op, r⟩
        · have hnext : Mode.patching.next ⟨op, r⟩ = .failed :=
            (if_neg hcompletion).trans (if_pos hthrew)
          simp [hnext, Mode.Fails, hthrew]
        · have hnext : Mode.patching.next ⟨op, r⟩ = .patching :=
            (if_neg hcompletion).trans (if_neg hthrew)
          simp [hnext, Mode.Fails, hthrew]
      | failed => exact Iff.rfl
      | completed => exact absurd rfl hm

/-! ### The functions -/

theorem complete_obeys (hm : m = .underway ∨ m = .patching) (err : Option SwiftError) :
    (complete err).Obeys once 1 m := by
  obtain rfl | rfl := hm
  · exact ⟨⟨nofun, nofun⟩, fun _ => .inr rfl⟩
  · exact ⟨⟨nofun, nofun⟩, fun _ => .inr rfl⟩

theorem attempt_underway {op : FileOp} {caught : SwiftError → Task} {k : Task}
    (hcaught : ∀ e, (caught e).Obeys once n .underway) (hk : k.Obeys once n .underway) :
    (attempt op caught k).Obeys once (n + 1) .underway := by
  refine ⟨⟨nofun, nofun⟩, fun r => ?_⟩
  cases r with
  | ok _ => exact hk
  | error e => exact hcaught e

theorem attempt_patching {op : FileOp} {caught : SwiftError → Task} {k : Task}
    (hcaught : ∀ e, (caught e).Obeys once n .failed) (hk : k.Obeys once n .patching) :
    (attempt op caught k).Obeys once (n + 1) .patching := by
  refine ⟨⟨nofun, nofun⟩, fun r => ?_⟩
  cases r with
  | ok _ => exact hk
  | error e => exact hcaught e

theorem tryOptional_failed {op : FileOp} {k : Task} (hk : k.Obeys once n .failed) :
    (tryOptional op k).Obeys once (n + 1) .failed := by
  refine ⟨⟨nofun, fun _ _ => nofun⟩, fun r => ?_⟩
  cases r with
  | ok _ => exact hk
  | error e => exact hk

theorem cleanUp_obeys : cleanUp.Obeys once 3 .failed :=
  tryOptional_failed <| tryOptional_failed <| tryOptional_failed <| .inl rfl

theorem fileExists_obeys {f : File} {k : Bool → Task} (hm : m = .underway ∨ m = .patching)
    (hk : ∀ r, (k r).Obeys once n m) : Prog.Obeys once (n + 1) m (.req (.fileExists f) k) := by
  obtain rfl | rfl := hm
  · exact ⟨⟨nofun, nofun⟩, hk⟩
  · exact ⟨⟨nofun, nofun⟩, hk⟩

theorem removeExisting_obeys {f : File} {k : Task} (hn : 3 ≤ n) (hk : k.Obeys once n .patching) :
    (removeExisting f (fun _ => cleanUp) k).Obeys once (n + 2) .patching := by
  refine fileExists_obeys (.inr rfl) fun r => ?_
  cases r with
  | true => exact attempt_patching (fun _ => cleanUp_obeys.mono hn) hk
  | false => exact hk.mono (Nat.le_succ n)

theorem downloadCompleteArchive_obeys : downloadCompleteArchive.Obeys once 4 .underway := by
  refine ⟨⟨nofun, nofun⟩, fun r : Response => ?_⟩
  have hdone : ∀ err, (complete err).Obeys once 3 .underway := fun err =>
    (complete_obeys (.inl rfl) err).mono (by decide)
  obtain ⟨data, statusCode, err⟩ := r
  cases err with
  | some err => exact hdone _
  | none =>
    dsimp only
    split_ifs with hstatus
    · exact hdone _
    cases data with
    | none => exact hdone _
    | some data =>
      exact attempt_underway (fun e => (complete_obeys (.inl rfl) _).mono (by decide)) <|
        attempt_underway (fun e => complete_obeys (.inl rfl) _) (complete_obeys (.inl rfl) _)

/-- What is done with a diff. -/
theorem patch_obeys (data : Bytes) :
    (removeExisting .diff (fun _ => cleanUp) <|
      removeExisting .old (fun _ => cleanUp) <|
        attempt (.write data .diff) (fun _ => cleanUp) <|
          attempt (.moveItem .archive .old) (fun _ => cleanUp) <|
            attempt (.patch .old .archive .diff) (fun _ => cleanUp) <|
              attempt (.removeItem .diff) (fun _ => cleanUp) <|
                attempt (.removeItem .old) (fun _ => cleanUp) <|
                  extractArchive (fun _ => cleanUp) <| complete none).Obeys once 13 .patching := by
  have hdone : (complete none).Obeys once 3 .patching :=
    (complete_obeys (.inr rfl) none).mono (by decide)
  have hcaught : ∀ n, cleanUp.Obeys once (n + 3) .failed := fun n =>
    cleanUp_obeys.mono (Nat.le_add_left 3 n)
  refine removeExisting_obeys (by decide) <| removeExisting_obeys (by decide) ?_
  exact attempt_patching (fun _ => hcaught 5) <| attempt_patching (fun _ => hcaught 4) <|
    attempt_patching (fun _ => hcaught 3) <| attempt_patching (fun _ => hcaught 2) <|
      attempt_patching (fun _ => hcaught 1) <| attempt_patching (fun _ => hcaught 0) hdone

theorem downloadAndPatchArchive_obeys (fromVersion : String) :
    (downloadAndPatchArchive fromVersion).Obeys once 14 .underway := by
  refine ⟨⟨nofun, nofun⟩, fun r : Response => ?_⟩
  have hmode : ∀ r : Response, Mode.underway.next ⟨.dataTask (.diff fromVersion), r⟩ = .underway ∨
      Mode.underway.next ⟨.dataTask (.diff fromVersion), r⟩ = .patching := by
    intro r
    simp only [Mode.next, isCompletion, Bool.false_eq_true, if_false]
    split_ifs
    · exact .inr rfl
    · exact .inl rfl
  have hdone : ∀ r err, (complete err).Obeys once 13
      (Mode.underway.next ⟨.dataTask (.diff fromVersion), r⟩) := fun r err =>
    (complete_obeys (hmode r) err).mono (by decide)
  obtain ⟨data, statusCode, err⟩ := r
  cases err with
  | some err => exact hdone ⟨data, statusCode, some err⟩ (some err)
  | none =>
    dsimp only
    split_ifs with hstatus
    · exact hdone ⟨data, statusCode, none⟩ (some .unknownError)
    cases data with
    | none => exact hdone ⟨none, statusCode, none⟩ (some .malformedDataError)
    | some data =>
      -- this is the answer that starts the patching
      obtain rfl := not_not.1 hstatus
      exact patch_obeys data

theorem getAssetVersions_obeys (env : Env)
    {handler : Option (List String) → Option SwiftError → Task}
    (hhandler : ∀ versions err, (handler versions err).Obeys once n .underway) :
    (getAssetVersions env handler).Obeys once (n + 1) .underway := by
  refine ⟨⟨nofun, nofun⟩, fun r : Response => ?_⟩
  obtain ⟨data, statusCode, err⟩ := r
  cases err with
  | some err => exact hhandler _ _
  | none =>
    dsimp only
    split <;> exact hhandler _ _

theorem updateToLatest_obeys (env : Env) : (updateToLatest env).Obeys once 16 .underway := by
  refine getAssetVersions_obeys env fun versions err => ?_
  have hdone : ∀ err, (complete err).Obeys once 14 .underway := fun err =>
    (complete_obeys (.inl rfl) err).mono (by decide)
  cases err with
  | some err => exact (hdone _).mono (by decide)
  | none =>
    cases versions with
    | none => exact (hdone _).mono (by decide)
    | some versions =>
      refine ⟨⟨nofun, nofun⟩, fun archive : Option Bytes => ?_⟩
      dsimp only
      split
      · exact hdone _
      · split_ifs with hlast
        · have hone : ∀ err, (complete err).Obeys once 13 .underway := fun err =>
            (complete_obeys (.inl rfl) err).mono (by decide)
          exact attempt_underway (fun _ => hone _) (hone _)
        · exact downloadAndPatchArchive_obeys _

theorem updateArchive_obeys (env : Env) : (updateArchive env).Obeys once 20 .underway := by
  have hlatest : Prog.Obeys once 17 .underway (.req (.fileExists .archive) fun
      | true => updateToLatest env
      | false => downloadCompleteArchive) := by
    refine fileExists_obeys (.inl rfl) fun r => ?_
    cases r with
    | true => exact updateToLatest_obeys env
    | false => exact downloadCompleteArchive_obeys.mono (by decide)
  refine fileExists_obeys (.inl rfl) fun r => ?_
  cases r with
  | true => exact hlatest.mono (by decide)
  | false =>
    refine ⟨⟨nofun, nofun⟩, fun r => ?_⟩
    cases r with
    | true => exact attempt_underway (fun _ => hlatest) hlatest
    | false => exact hlatest.mono (by decide)

/-- **An update** completes once, unless it throws after it has received a diff. -/
theorem update_obeys (env : Env) : (update env).Obeys once 24 .underway := by
  have harchive := updateArchive_obeys env
  refine fileExists_obeys (.inl rfl) fun r => ?_
  cases r with
  | true => exact harchive.mono (by decide)
  | false =>
    refine attempt_underway (fun e => ?_) (harchive.mono (by decide))
    have hdone : ∀ err, (complete err).Obeys once 20 .underway := fun err =>
      (complete_obeys (.inl rfl) err).mono (by decide)
    split_ifs with hexisting
    · exact attempt_underway (fun e => (hdone _).mono (by decide)) <|
        attempt_underway (fun e => hdone _) harchive
    · exact (hdone _).mono (by decide)

end

/-! ## Runs -/

/-- An entry of a list is replaced. -/
theorem set_parts {α : Type} {l : List α} {i : ℕ} {x : α} (h : l[i]? = some x) (y : α) :
    ∃ a b, l = a ++ x :: b ∧ l.set i y = a ++ y :: b := by
  obtain ⟨hi, rfl⟩ := List.getElem?_eq_some_iff.1 h
  refine ⟨l.take i, l.drop (i + 1), ?_, ?_⟩
  · rw [List.getElem_cons_drop, List.take_append_drop]
  · rw [List.set_eq_take_append_cons_drop, if_pos hi]

theorem countP_set_of_getElem? {α : Type} {l : List α} {i : ℕ} {x : α} (h : l[i]? = some x)
    (y : α) (P : α → Bool) :
    (l.set i y).countP P + (if P x then 1 else 0) = l.countP P + if P y then 1 else 0 := by
  obtain ⟨a, b, rfl, hset⟩ := set_parts h y
  rw [hset, List.countP_append, List.countP_append, List.countP_cons, List.countP_cons]
  omega

/-- The updates are those of the code; the group counts those that have not completed, and the
    queue has completed if it is over. -/
structure Inv (env : Env) (s : State) : Prop where
  follows : ∀ u ∈ s.updates, (update env).Leads u.events u.rest
  started : s.updates.length ≤ s.names.length
  group : s.group = s.updates.countP fun u => u.calls = 0
  isOver : s.isOver → s.updates.length = s.names.length ∧ s.group = 0 ∧ s.completions.length = 1
  waiting : s.isOver = false → s.completions = []

section
variable {env : Env} {staging : Bool} {s s' : State} {op : Op} {u : Update}

theorem Update.calls_eq (h : (update env).Leads u.events u.rest) :
    u.calls = (u.events.foldl Mode.next .underway).calls := by
  rw [← AssetArchive.calls_eq h (update_obeys env), Update.calls]
  exact (Nat.zero_add _).symm

/-- An update that is to complete has not done so. -/
theorem Update.calls_zero {t : List Event} {op : Req} {k : op.Res → Task}
    (h : (update env).Leads t (.req op k)) : Update.calls ⟨t, .req op k⟩ = 0 := by
  obtain ⟨n, -, hq⟩ := h.obeys (update_obeys env)
  rw [Update.calls_eq h]
  cases n with
  | zero => exact hq.elim
  | succ n =>
    have hmode : t.foldl Mode.next .underway ≠ .completed := hq.1.1
    generalize t.foldl Mode.next .underway = m at hmode
    cases m with
    | completed => exact absurd rfl hmode
    | _ => rfl

theorem Update.calls_answer {t : List Event} {op : Req} {k : op.Res → Task} (r : op.Res)
    {rest : Task} : Update.calls ⟨t ++ [⟨op, r⟩], rest⟩ =
      Update.calls ⟨t, .req op k⟩ + if isCompletion ⟨op, r⟩ then 1 else 0 := by
  rw [Update.calls, List.countP_append, List.countP_singleton, Update.calls]

theorem Inv.loaded (r : Except Results (List String)) : Inv env (.loaded r) := by
  cases r with
  | error results => exact ⟨nofun, Nat.le_refl _, rfl, fun _ => ⟨rfl, rfl, rfl⟩, nofun⟩
  | ok names => exact ⟨nofun, Nat.zero_le _, rfl, nofun, fun _ => rfl⟩

theorem Inv.follows_set (h : Inv env s) {i : ℕ} {t : List Event} {op : Req} {k : op.Res → Task}
    (hu : s.updates[i]? = some ⟨t, .req op k⟩) (r : op.Res) :
    ∀ u ∈ s.updates.set i ⟨t ++ [⟨op, r⟩], k r⟩, (update env).Leads u.events u.rest := by
  intro u hmem
  obtain hmem | rfl := List.mem_or_eq_of_mem_set hmem
  · exact h.follows u hmem
  · exact (h.follows _ (List.mem_of_getElem? hu)).concat r

theorem Inv.step (h : Inv env s) (hstep : Step env s op s') : Inv env s' := by
  cases hstep with
  | enter hover hnext hreturned =>
    refine ⟨fun u hu => ?_, ?_, ?_, fun hover' => ?_, h.waiting⟩
    · obtain hu | hu := List.mem_append.1 hu
      · exact h.follows u hu
      · obtain rfl := List.mem_singleton.1 hu
        exact .refl _
    · rw [List.length_append, List.length_singleton]
      exact hnext
    · rw [List.countP_append, List.countP_singleton, h.group]
      rfl
    · rw [hover] at hover'
      exact absurd hover' Bool.false_ne_true
  | @answer i t op k hu hop r =>
    have hlen : (s.updates.set i ⟨t ++ [⟨op, r⟩], k r⟩).length = s.updates.length :=
      List.length_set
    have hsame : Update.calls ⟨t ++ [⟨op, r⟩], k r⟩ = Update.calls ⟨t, .req op k⟩ := by
      rw [Update.calls_answer (k := k) r, if_neg, Nat.add_zero]
      cases op with
      | complete err => exact absurd rfl (hop err)
      | _ => exact Bool.false_ne_true
    refine ⟨h.follows_set hu r, hlen ▸ h.started, ?_, fun hover => hlen ▸ h.isOver hover, h.waiting⟩
    have hcount := countP_set_of_getElem? hu ⟨t ++ [⟨op, r⟩], k r⟩ fun u => u.calls = 0
    rw [hsame] at hcount
    exact h.group.trans (Nat.add_right_cancel hcount).symm
  | @leave i g t err k name hu hname hgroup =>
    have hlen : (s.updates.set i ⟨t ++ [⟨.complete err, ()⟩], k ()⟩).length = s.updates.length :=
      List.length_set
    have hzero := Update.calls_zero (h.follows _ (List.mem_of_getElem? hu))
    have hone : Update.calls ⟨t ++ [⟨.complete err, ()⟩], k ()⟩ = 1 := by
      rw [@Update.calls_answer t (.complete err) k (), hzero]
      rfl
    refine ⟨h.follows_set hu (), hlen ▸ h.started, ?_, fun hover => ?_, h.waiting⟩
    · -- one update less has not completed
      have hcount := countP_set_of_getElem? hu ⟨t ++ [⟨.complete err, ()⟩], k ()⟩
        fun u => u.calls = 0
      rw [hzero, hone, ← h.group, hgroup] at hcount
      exact (Nat.add_right_cancel hcount).symm
    · rw [(h.isOver hover).2.1] at hgroup
      exact absurd hgroup (Nat.succ_ne_zero g).symm
  | wait hover hnext hreturned hgroup =>
    refine ⟨h.follows, h.started, h.group, fun _ => ⟨hnext, hgroup, ?_⟩, nofun⟩
    rw [h.waiting hover]
    rfl

theorem inv_of_run (h : (updateBundles env staging).Run (fun _ _ => True) s) : Inv env s := by
  refine System.Run.invariant (J := fun _ => True) (fun _ => trivial) ?_ ?_ h
  · rintro s ⟨t, r, -, rfl⟩
    exact .loaded r
  · intro s op s' _ hinv _ hstep _
    exact hinv.step hstep

/-! ## The end of a run -/

/-- The steps that were made. -/
def State.spent (s : State) : ℕ :=
  s.updates.length + (s.updates.map fun u => u.events.length).sum + if s.isOver then 1 else 0

/-- Each bundle was updated, which has completed once; the group was left, and `updateBundles` has
    completed once. -/
structure State.Complete (s : State) : Prop where
  started : s.updates.length = s.names.length
  once : ∀ u ∈ s.updates, u.calls = 1
  left : s.group = 0
  completed : s.completions.length = 1

/-- Nothing is left to do. -/
def State.Ended (env : Env) (s : State) : Prop := ∀ op s', ¬ Step env s op s'

theorem sum_events_set {l : List Update} {i : ℕ} {t : List Event} {op : Req} {k : op.Res → Task}
    (h : l[i]? = some ⟨t, .req op k⟩) (r : op.Res) :
    ((l.set i ⟨t ++ [⟨op, r⟩], k r⟩).map fun u => u.events.length).sum =
      (l.map fun u => u.events.length).sum + 1 := by
  obtain ⟨a, b, rfl, hset⟩ := set_parts h (⟨t ++ [⟨op, r⟩], k r⟩ : Update)
  rw [hset]
  simp only [List.map_append, List.map_cons, List.sum_append, List.sum_cons, List.length_append,
    List.length_singleton]
  omega

theorem Step.spent (h : Step env s op s') : s'.spent = s.spent + 1 ∧ s'.names = s.names := by
  cases h with
  | enter hover hnext hreturned =>
    refine ⟨?_, rfl⟩
    simp only [State.spent, List.map_append, List.map_cons, List.map_nil, List.sum_append,
      List.length_append, List.length_singleton, List.sum_cons, List.sum_nil, List.length_nil]
    omega
  | answer hu hop r =>
    refine ⟨?_, rfl⟩
    simp only [State.spent, List.length_set, sum_events_set hu r]
    omega
  | leave hu hname hgroup =>
    refine ⟨?_, rfl⟩
    simp only [State.spent, List.length_set, sum_events_set hu ()]
    omega
  | wait hover hnext hreturned hgroup =>
    refine ⟨?_, rfl⟩
    simp only [State.spent, hover, if_true, Bool.false_eq_true, if_false]

theorem Inv.spent_le (h : Inv env s) : s.spent ≤ 25 * s.names.length + 1 := by
  have hsum : (s.updates.map fun u => u.events.length).sum ≤ 24 * s.updates.length := by
    have := List.sum_le_card_nsmul (s.updates.map fun u => u.events.length) 24 fun x hx => by
      obtain ⟨u, hu, rfl⟩ := List.mem_map.1 hx
      obtain ⟨n, hn, -⟩ := (h.follows u hu).obeys (update_obeys env)
      omega
    rw [List.length_map, smul_eq_mul, Nat.mul_comm] at this
    exact this
  have hstarted := h.started
  have hover : (if s.isOver then 1 else 0) ≤ 1 := by split_ifs <;> decide
  rw [State.spent]
  omega

/-- **No run goes on forever**: an update makes at most 24 requests. -/
theorem Inv.acc (h : Inv env s) : Acc (fun s' s => ∃ op, Step env s op s') s := by
  generalize hn : 25 * s.names.length + 1 - s.spent = n
  induction n using Nat.strongRecOn generalizing s with
  | _ n ih =>
    refine ⟨_, fun s' ⟨op, hstep⟩ => ?_⟩
    have hinv := h.step hstep
    obtain ⟨hspent, hnames⟩ := hstep.spent
    have hle := hinv.spent_le
    exact ih _ (by rw [hnames] at hle ⊢; omega) hinv rfl

/-- Every request has an answer. -/
theorem Req.exists_res (op : Req) : Nonempty op.Res := by
  cases op with
  | file op => exact ⟨(.ok () : Except SwiftError Unit)⟩
  | fileExists f => exact ⟨true⟩
  | contents f => exact ⟨(none : Option Bytes)⟩
  | bundledArchive => exact ⟨true⟩
  | bundleNames => exact ⟨(none : Option (List String))⟩
  | dataTask route => exact ⟨(⟨none, none, none⟩ : Response)⟩
  | complete err => exact ⟨()⟩

theorem Inv.rest_of_ended (h : Inv env s) (hend : s.Ended env) (hu : u ∈ s.updates) :
    u.rest = .ret () := by
  obtain ⟨t, p⟩ := u
  obtain ⟨i, hi⟩ := List.mem_iff_getElem?.1 hu
  cases p with
  | ret a => rfl
  | req op k =>
    exfalso
    by_cases hop : ∃ err, op = .complete err
    · obtain ⟨err, rfl⟩ := hop
      have hname : ∃ name, s.names[i]? = some name := by
        have hlt := (List.getElem?_eq_some_iff.1 hi).1
        exact ⟨_, List.getElem?_eq_getElem (Nat.lt_of_lt_of_le hlt h.started)⟩
      have hgroup : 0 < s.group := by
        rw [h.group]
        exact List.countP_pos_iff.2 ⟨_, hu, decide_eq_true (Update.calls_zero (h.follows _ hu))⟩
      obtain ⟨name, hname⟩ := hname
      obtain ⟨g, hg⟩ := Nat.exists_eq_succ_of_ne_zero hgroup.ne'
      exact hend _ _ (.leave hi hname hg)
    · obtain ⟨r⟩ := op.exists_res
      exact hend _ _ (.answer hi (fun err herr => hop ⟨err, herr⟩) r)

/-- When nothing is left to do, the queue has waited unless the group was not left. -/
theorem Inv.over_of_ended (h : Inv env s) (hend : s.Ended env) (hgroup : s.group = 0) :
    s.isOver = true := by
  by_contra hover
  have hover : s.isOver = false := Bool.not_eq_true _ ▸ hover
  have hreturned : ∀ u ∈ s.updates, u.returned := fun u hu => by
    rw [Update.returned, h.rest_of_ended hend hu]
    exact Bool.or_true _
  obtain hlt | heq := h.started.lt_or_eq
  · exact hend _ _ (.enter hover hlt hreturned)
  · exact hend _ _ (.wait hover heq hreturned hgroup)

theorem Inv.calls_of_ended (h : Inv env s) (hend : s.Ended env) (hu : u ∈ s.updates) :
    (DiffThrows u.events ∧ u.calls = 0) ∨ (¬ DiffThrows u.events ∧ u.calls = 1) := by
  have hfollows := h.follows u hu
  have hcalls := Update.calls_eq hfollows
  have hfailed := failed_iff hfollows (update_obeys env)
  obtain ⟨n, -, hq⟩ := hfollows.obeys (update_obeys env)
  rw [h.rest_of_ended hend hu] at hq
  have hmode : u.events.foldl Mode.next .underway = .failed ∨
      u.events.foldl Mode.next .underway = .completed := by
    cases n <;> exact hq
  obtain hmode | hmode := hmode
  · rw [hmode] at hcalls
    exact .inl ⟨hfailed.1 hmode, hcalls⟩
  · rw [hmode] at hcalls
    exact .inr ⟨fun hthrows => Mode.noConfusion (hmode.symm.trans (hfailed.2 hthrows)), hcalls⟩

end

/-- **Updates complete unless a diff fails**: no run goes on forever, and when nothing is left to
    do, each update has completed once, and so has `updateBundles`, if and only if nothing has
    thrown after a diff was received. -/
theorem updateBundles_iff (env : Env) (staging : Bool) {s : State}
    (h : (updateBundles env staging).Run (fun _ _ => True) s) :
    Acc (fun s' s => ∃ op, Step env s op s') s ∧
      (s.Ended env → (s.Complete ↔ ∀ u ∈ s.updates, ¬ DiffThrows u.events)) := by
  have hinv := inv_of_run h
  refine ⟨hinv.acc, fun hend => ⟨fun hcomplete u hu => ?_, fun hnot => ?_⟩⟩
  · obtain ⟨-, hzero⟩ | ⟨hnot, -⟩ := hinv.calls_of_ended hend hu
    · exact absurd (hzero.symm.trans (hcomplete.once u hu)) Nat.zero_ne_one
    · exact hnot
  · have hcalls : ∀ u ∈ s.updates, u.calls = 1 := fun u hu =>
      (hinv.calls_of_ended hend hu).elim (fun hthrows => absurd hthrows.1 (hnot u hu)) And.right
    have hgroup : s.group = 0 := by
      rw [hinv.group, List.countP_eq_zero]
      intro u hu
      rw [hcalls u hu]
      decide
    obtain ⟨hstarted, -, hcompleted⟩ := hinv.isOver (hinv.over_of_ended hend hgroup)
    exact ⟨hstarted, hcalls, hgroup, hcompleted⟩

section
variable {env : Env} {staging : Bool}

theorem run_one {names : List String} {t : List Event}
    (h : (loadNames staging).Leads t (.ret (.ok names))) (hnames : 0 < names.length) :
    (updateBundles env staging).Run (fun _ _ => True)
      { names, updates := [{ rest := update env }], group := 1,
        results := names.map fun n => (n, none) } :=
  .step (.init ⟨t, _, h, rfl⟩) trivial (.enter rfl hnames nofun)

/-- The answers to a single update, up to its completion. -/
theorem run_leads {s : State} {p q : Task} {t : List Event} (h : p.Leads t q)
    (ht : t.any isCompletion = false) {events : List Event}
    (hrun : (updateBundles env staging).Run (fun _ _ => True)
      { s with updates := [⟨events, p⟩] }) :
    (updateBundles env staging).Run (fun _ _ => True)
      { s with updates := [⟨events ++ t, q⟩] } := by
  induction h generalizing events with
  | refl p =>
    rw [List.append_nil]
    exact hrun
  | @req op k r t q _ ih =>
    rw [List.any_cons, Bool.or_eq_false_iff] at ht
    have hop : ∀ err, op ≠ .complete err := by
      rintro err rfl
      exact absurd ht.1 Bool.noConfusion
    have hnext := ih ht.2 (.step hrun trivial (.answer (i := 0) rfl hop r))
    rwa [List.append_assoc] at hnext

end

/-- Hashes and versions for the runs below. -/
def someEnv : Env where
  version _ := "0"
  versions _ := some []

/-- There is a bundle. -/
theorem leads_names : (loadNames false).Leads
    [⟨.file (.attributesOfItem .bundleDir), (.ok () : Except SwiftError Unit)⟩,
      ⟨.bundleNames, (some ["a"] : Option (List String))⟩] (.ret (.ok ["a"])) :=
  .req (.req (.refl _))

/-- The single bundle is updated, up to its completion. -/
theorem run_names {p : Task} {t : List Event} (h : (update someEnv).Leads t p)
    (ht : t.any isCompletion = false) :
    (updateBundles someEnv false).Run (fun _ _ => True)
      { names := ["a"], updates := [⟨t, p⟩], group := 1, results := [("a", none)] } :=
  @run_leads someEnv false { names := ["a"], group := 1, results := [("a", none)] } _ _ _ h ht []
    (run_one leads_names Nat.one_pos)

/-- The single bundle has no more to do. -/
theorem ended_of_ret {s : State} {t : List Event} (hu : s.updates = [⟨t, .ret ()⟩])
    (hnames : s.names.length = 1) (hwait : s.isOver = true ∨ s.group ≠ 0) : s.Ended someEnv := by
  intro op s' hstep
  cases hstep with
  | enter hover hnext hreturned =>
    rw [hu, hnames] at hnext
    exact Nat.lt_irrefl _ hnext
  | answer hi hop r =>
    have := List.mem_of_getElem? hi
    simp [hu] at this
  | leave hi hname hgroup =>
    have := List.mem_of_getElem? hi
    simp [hu] at this
  | wait hover hnext hreturned hgroup =>
    exact hwait.elim (fun h => absurd (hover.symm.trans h) Bool.false_ne_true) (· hgroup)

/-- Answers to an update for which there is a diff, until that is written. -/
def diffReceived : List Event :=
  [⟨.fileExists .extracted, true⟩, ⟨.fileExists .archive, true⟩, ⟨.fileExists .archive, true⟩,
    ⟨.dataTask .versions, (⟨some [], some 200, none⟩ : Response)⟩,
    ⟨.contents .archive, (some [] : Option Bytes)⟩,
    ⟨.dataTask (.diff "0"), (⟨some [], some 200, none⟩ : Response)⟩,
    ⟨.fileExists .diff, false⟩, ⟨.fileExists .old, false⟩]

/-- The diff is applied. -/
def patched : List Event :=
  diffReceived ++ [⟨.file (.write [] .diff), (.ok () : Except SwiftError Unit)⟩,
    ⟨.file (.moveItem .archive .old), (.ok () : Except SwiftError Unit)⟩,
    ⟨.file (.patch .old .archive .diff), (.ok () : Except SwiftError Unit)⟩,
    ⟨.file (.removeItem .diff), (.ok () : Except SwiftError Unit)⟩,
    ⟨.file (.removeItem .old), (.ok () : Except SwiftError Unit)⟩,
    ⟨.file (.createFilesAndDirectories .extracted .archive), (.ok () : Except SwiftError Unit)⟩]

theorem leads_patched : (update someEnv).Leads patched (complete none) :=
  .req (.req (.req (.req (.req (.req (.req (.req (.req (.req (.req (.req (.req (.req
    (.refl _))))))))))))))

theorem updateBundles_iff_patched :
    let s : State :=
      { names := ["a"], updates := [⟨patched ++ [⟨.complete none, ()⟩], .ret ()⟩],
        results := [("a", none)], isOver := true, completions := [[("a", none)]] }
    (updateBundles someEnv false).Run (fun _ _ => True) s ∧ patched.any isDiff ∧ s.Complete := by
  intro s
  have hrun : (updateBundles someEnv false).Run (fun _ _ => True) s :=
    .step (.step (run_names leads_patched rfl) trivial (.leave (i := 0) rfl rfl rfl)) trivial
      (.wait rfl rfl (fun _ hu => List.mem_singleton.1 hu ▸ rfl) rfl)
  have hended : s.Ended someEnv := ended_of_ret rfl rfl (.inl rfl)
  refine ⟨hrun, rfl, ((updateBundles_iff someEnv false hrun).2 hended).2 fun u hu hthrows => ?_⟩
  obtain rfl := List.mem_singleton.1 hu
  obtain ⟨e, after, hafter, -, hthrew⟩ := hthrows
  obtain ⟨x, hx, hthrew⟩ := List.any_eq_true.1 hthrew
  have hsome : (patched ++ [(⟨.complete none, ()⟩ : Event)]).any threw = true :=
    List.any_eq_true.2 ⟨x, hafter.subset (List.mem_cons_of_mem _ hx), hthrew⟩
  exact Bool.false_ne_true hsome

/-- There is no space left to write the diff. -/
def outOfSpace : List Event :=
  diffReceived ++ [⟨.file (.write [] .diff),
      (.error (.nsError "NSCocoaErrorDomain" 640) : Except SwiftError Unit)⟩,
    ⟨.file (.removeItem .diff), (.ok () : Except SwiftError Unit)⟩,
    ⟨.file (.removeItem .old), (.ok () : Except SwiftError Unit)⟩,
    ⟨.file (.removeItem .archive), (.ok () : Except SwiftError Unit)⟩]

theorem leads_outOfSpace : (update someEnv).Leads outOfSpace (.ret ()) :=
  .req (.req (.req (.req (.req (.req (.req (.req (.req (.req (.req (.req (.refl _))))))))))))

/-- **No completion**: the group is waited for without an end. -/
theorem not_updateBundles :
    ¬ ∀ (env : Env) (staging : Bool) (s : State),
      (updateBundles env staging).Run (fun _ _ => True) s → s.Ended env → s.Complete := by
  intro h
  exact absurd (h someEnv false _ (run_names leads_outOfSpace rfl)
    (ended_of_ret rfl rfl (.inr Nat.one_ne_zero))).left Nat.one_ne_zero

end AssetArchive

end RavenWallet
