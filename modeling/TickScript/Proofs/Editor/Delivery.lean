import Mathlib.Data.List.Induction
import TickScript.Editor.Message
import TickScript.Proofs.Table

/-!
# Publications in flight

A server that takes in an edit starts a publication of the document's diagnostics and does not wait
until the editor has it. So a session is a server together with the publications in flight and those
delivered: one step handles the next edit, another delivers any of the publications in flight.

The invariant `Tracks` carries everything: whatever the interleaving, what was delivered and what is
in flight is together a permutation of what the edits started. Every permutation occurs, so the last
publication delivered is the current one in every order exactly when all that were started for the
document say the same.

What is current is a matter of its own. `latest?` is the text that the server took in last, `actual?`
the one that the events of all changes make. They are the same as long as the editor sends whole texts
(`actual_of_isWhole`); a change whose last event replaces a stretch is lost on the server.

A run is a sequence of steps of two kinds in any order, and nothing ties a delivery to the edits
around it: publications are handed to the editor by tasks of their own. Both directions of the main
equivalence need that. From left to right one has to make a run in which a given publication comes
last (`exists_run_shown`), which first handles all edits and then delivers in the wanted order. From
right to left the invariant is enough, since what was delivered is a permutation of what was
started.
-/

namespace TickScript.Editor

/-! ## Edits -/

/-- What an editor tells about its documents. -/
inductive Edit where
  /-- A document is opened with its text. -/
  | opened (uri text : Text)
  /-- A document is changed by events, in the order they are given. -/
  | changed (uri : Text) (events : List Json)
  /-- A document is closed. -/
  | closed (uri : Text)

namespace Edit

def uri : Edit → Text
  | opened uri _ => uri
  | changed uri _ => uri
  | closed uri => uri

/-- The request that an edit makes. Of the events of a change the last one counts. -/
def request : Edit → Request
  | opened uri text => .didOpen uri text
  | changed uri events => .didChange uri (events.getLast?.bind wholeText?)
  | closed uri => .didClose uri

/-- What the server takes the document to be after an edit: a text, or closed. An edit whose last
event changes only a range is not taken in. -/
def taken? : Edit → Option (Option Text)
  | opened _ text => some (some text)
  | changed _ events => (events.getLast?.bind wholeText?).map some
  | closed _ => some none

end Edit

/-- What the edits of a document made of it, one after the other. -/
def states (uri : Text) (edits : List Edit) : List (Option Text) :=
  edits.filterMap fun e => if e.uri = uri then e.taken? else none

/-- What the document is in the end as the server takes it; `none` when the server never heard of
it. -/
def latest? (uri : Text) (edits : List Edit) : Option (Option Text) := (states uri edits).getLast?

/-! ## What the document really is

An editor changes a document event by event. An event gives the whole text, or it replaces a stretch
of the one before. How a column is turned into bytes is left open, so whatever is said about the
document is said for every way of counting columns. -/

/-- How many bytes of a line stand in front of a column. -/
abbrev Columns := (line : Text) → (column : Nat) → Nat

/-- How many bytes of a text stand in front of a position. -/
def offsetOf (columns : Columns) (text : Text) (pos : Position) : Nat :=
  let lines := Text.splitOn 0x0A text
  let above := (lines.take pos.line).flatMap fun line => line ++ [0x0A]
  above.length + columns (lines[pos.line]?.getD []) pos.character

/-- A bound of the stretch that an event replaces. -/
def boundOf (event : Json) (name : Text) : Position :=
  let places := Json.values name (Json.values "range" [event])
  ⟨Json.lastNat (Json.values "line" places), Json.lastNat (Json.values "character" places)⟩

/-- A text after an event. -/
def changedBy (columns : Columns) (text : Text) (event : Json) : Text :=
  match wholeText? event with
  | some whole => whole
  | none =>
    text.take (offsetOf columns text (boundOf event "start"))
      ++ Json.lastText (Json.values "text" [event])
      ++ text.drop (offsetOf columns text (boundOf event "end"))

/-- What an edit makes of its document. Events make up the text of a document that is not open. -/
def Edit.makes (columns : Columns) (before : Option (Option Text)) : Edit → Option (Option Text)
  | opened _ text => some (some text)
  | changed _ events =>
    if events.isEmpty then before
    else some (some (events.foldl (changedBy columns) (before.join.getD [])))
  | closed _ => some none

/-- What the document really is in the end; `none` when the editor never spoke of it. -/
def actual? (columns : Columns) (uri : Text) (edits : List Edit) : Option (Option Text) :=
  edits.foldl (fun state e => if e.uri = uri then e.makes columns state else state) none

/-- Whether an edit gives whole texts only, as the server asks for. -/
def Edit.IsWhole : Edit → Prop
  | changed _ events => ∀ event ∈ events, (wholeText? event).isSome = true
  | _ => True

/-- The text of a document after one more edit: only an edit of that document changes it. -/
theorem actual_concat (columns : Columns) (uri : Text) (edits : List Edit) (e : Edit) :
    actual? columns uri (edits ++ [e]) = if e.uri = uri then e.makes columns (actual? columns uri edits)
      else actual? columns uri edits := by
  simp [actual?]

/-- An event without a range gives the whole text, whatever the events before it did. -/
theorem foldl_changedBy_concat (columns : Columns) (text : Text) (events : List Json) {event : Json}
    {whole : Text} (h : wholeText? event = some whole) :
    (events ++ [event]).foldl (changedBy columns) text = whole := by
  simp [changedBy, h]

/-! ## Publications -/

/-- The publication due for a text of a document, or for a closed document. -/
def publicationOf (env : Environment) (uri : Text) : Option Text → Publication
  | some text => ⟨uri, noticesOf (analyze env (Uri.path uri) text) text⟩
  | none => ⟨uri, []⟩

@[simp] theorem publicationOf_uri (env : Environment) (uri : Text) (state : Option Text) :
    (publicationOf env uri state).uri = uri := by
  cases state <;> rfl

/-- The publication that an edit starts. -/
def Edit.published? (env : Environment) (e : Edit) : Option Publication :=
  e.taken?.map (publicationOf env e.uri)

/-- The publications that edits start, in their order. -/
def started (env : Environment) (edits : List Edit) : List Publication :=
  edits.filterMap (Edit.published? env)

/-- The publication that tells the truth about a document. -/
def current? (env : Environment) (uri : Text) (edits : List Edit) : Option Publication :=
  (latest? uri edits).map (publicationOf env uri)

/-- The publication due for what the document really is. -/
def due? (columns : Columns) (env : Environment) (uri : Text) (edits : List Edit) :
    Option Publication := (actual? columns uri edits).map (publicationOf env uri)

/-- The publications of one document. -/
def about (uri : Text) (ps : List Publication) : List Publication := ps.filter fun p => p.uri = uri

/-- What the editor shows for a document. -/
def shown? (uri : Text) (ps : List Publication) : Option Publication := (about uri ps).getLast?

/-- What is told of a document among publications. -/
theorem mem_about {uri : Text} {ps : List Publication} {p : Publication} :
    p ∈ about uri ps ↔ p ∈ ps ∧ p.uri = uri := by
  simp [about]

/-- The publications started for a document go through its states. -/
theorem about_started (env : Environment) (uri : Text) (edits : List Edit) :
    about uri (started env edits) = (states uri edits).map (publicationOf env uri) := by
  induction edits with
  | nil => rfl
  | cons e edits ih =>
      have hcons : about uri (started env (e :: edits))
          = about uri (e.published? env).toList ++ about uri (started env edits) := by
        cases hpublished : e.published? env <;> simp [about, started, hpublished, List.filter_cons]
        split <;> simp
      rw [hcons, ih]
      by_cases huri : e.uri = uri
      · cases htaken : e.taken? <;> simp [states, about, Edit.published?, huri, htaken]
      · cases htaken : e.taken? <;> simp [states, about, Edit.published?, huri, htaken]

/-- The last publication started for a document is the current one. -/
theorem shown_started (env : Environment) (uri : Text) (edits : List Edit) :
    shown? uri (started env edits) = current? env uri edits := by
  rw [shown?, about_started, List.getLast?_map, current?, latest?]

/-! ## Sessions -/

/-- A server and what it has started to publish. -/
structure Session where
  /-- The server with the documents as they are now. -/
  server : Server
  /-- What was sent and has not arrived. -/
  inFlight : List Publication := []
  /-- What has arrived, in the order of arrival. -/
  delivered : List Publication := []

namespace Session

/-- A session in which the editor has introduced itself. -/
def fresh (version : Text) : Session := { server := { version, introduced := true } }

/-- The sessions that handling some edits can lead to. -/
inductive Runs (env : Environment) (first : Session) : List Edit → Session → Prop
  /-- Nothing was edited and nothing sent. -/
  | start : Runs env first [] first
  /-- An edit is handled, and what is to be published is sent. -/
  | handle {edits : List Edit} {s : Session} {e : Edit} {response : Response}
    {published? : Option Publication} {server : Server} : Runs env first edits s →
    s.server.handle env e.request = (.ok (response, published?), server) →
    Runs env first (edits ++ [e])
      { s with server, inFlight := s.inFlight ++ published?.toList }
  /-- Any publication in flight may be the next to arrive. -/
  | deliver {edits : List Edit} {s : Session} {before after : List Publication} {p : Publication} :
    Runs env first edits s → s.inFlight = before ++ p :: after →
    Runs env first edits
      { s with inFlight := before ++ after, delivered := s.delivered ++ [p] }

/-- What the server holds of a document that it takes to be in some state. -/
def held (env : Environment) (uri : Text) (state : Option Text) : Option (Text × Analysis) :=
  state.map fun text => (text, analyze env (Uri.path uri) text)

/-- What is true of a session after some edits, in whatever order publications were delivered. -/
structure Tracks (env : Environment) (edits : List Edit) (s : Session) : Prop where
  introduced : s.server.introduced = true
  /-- The server holds the latest text of every document, and its analysis. -/
  documents : ∀ uri, s.server.documents.get? uri = held env uri (latest? uri edits).join
  /-- No publication is lost, none is made up and none comes twice. -/
  publications : (s.delivered ++ s.inFlight).Perm (started env edits)

/-- What the server makes of an edit. -/
def absorb (env : Environment) (server : Server) (e : Edit) : Server :=
  match e.taken? with
  | none => server
  | some none => { server with documents := server.documents.erase e.uri }
  | some (some text) =>
    { server with
      documents := server.documents.set e.uri (text, analyze env (Uri.path e.uri) text) }

/-- A server that has been introduced takes every edit in, answers nothing and starts the publications
that the edit causes. -/
theorem handle_edit (env : Environment) {server : Server} (h : server.introduced = true) (e : Edit) :
    server.handle env e.request = (.ok (.nothing, e.published? env), absorb env server e) := by
  cases e with
  | opened uri text =>
      simp [Edit.request, Server.handle, Server.update, h, Edit.published?, Edit.taken?, absorb,
        publicationOf, Edit.uri]
  | changed uri events =>
      cases hlast : events.getLast?.bind wholeText? <;>
        simp [Edit.request, Server.handle, Server.update, Server.query, h, hlast, Edit.published?,
          Edit.taken?, absorb, publicationOf, Edit.uri]
  | closed uri =>
      simp [Edit.request, Server.handle, h, Edit.published?, Edit.taken?, absorb, publicationOf,
        Edit.uri]

theorem absorb_introduced (env : Environment) (server : Server) (e : Edit) :
    (absorb env server e).introduced = server.introduced := by
  unfold absorb
  split <;> rfl

/-- The edit of one document leaves the others alone. -/
theorem get?_absorb (env : Environment) (server : Server) (e : Edit) (uri : Text) :
    (absorb env server e).documents.get? uri
      = match e.taken? with
        | none => server.documents.get? uri
        | some state => if uri = e.uri then held env uri state else server.documents.get? uri := by
  unfold absorb
  cases htaken : e.taken? with
  | none => rfl
  | some state =>
      cases state with
      | none => exact Table.get?_erase _ _ _
      | some text =>
          refine (Table.get?_set _ _ _ _).trans ?_
          split
          · next h => simp [held, h]
          · rfl

/-- The state that an edit leaves is the latest one of its document. -/
theorem latest_concat (uri : Text) (edits : List Edit) (e : Edit) :
    latest? uri (edits ++ [e])
      = match e.taken? with
        | none => latest? uri edits
        | some state => if uri = e.uri then some state else latest? uri edits := by
  unfold latest? states
  by_cases huri : uri = e.uri
  · cases htaken : e.taken? <;> simp [huri, htaken]
  · have hne : ¬e.uri = uri := fun h => huri h.symm
    cases htaken : e.taken? <;> simp [huri, hne]

/-- An editor that sends whole texts is understood. -/
theorem actual_of_isWhole (columns : Columns) (uri : Text) {edits : List Edit}
    (h : ∀ e ∈ edits, e.IsWhole) : actual? columns uri edits = latest? uri edits := by
  induction edits using List.reverseRecOn with
  | nil => rfl
  | append_singleton edits e ih =>
      have hrest := ih fun e he => h e (by simp [he])
      have hwhole := h e (by simp)
      rw [actual_concat, latest_concat, hrest]
      by_cases huri : e.uri = uri
      · rw [if_pos huri]
        cases e with
        | opened uri' text => simp [Edit.makes, Edit.taken?, huri.symm]
        | closed uri' => simp [Edit.makes, Edit.taken?, huri.symm]
        | changed uri' events =>
            induction events using List.reverseRecOn with
            | nil => rfl
            | append_singleton events event _ =>
                obtain ⟨whole, hevent⟩ := Option.isSome_iff_exists.1 (hwhole event (by simp))
                simp [Edit.makes, Edit.taken?, huri.symm, hevent,
                  foldl_changedBy_concat columns _ events hevent]
      · have hne : ¬uri = e.uri := fun h => huri h.symm
        rw [if_neg huri]
        cases e.taken? <;> simp [hne]

/-- Handling an edit. -/
theorem Tracks.handle {env : Environment} {edits : List Edit} {s : Session} (h : Tracks env edits s)
    (e : Edit) : Tracks env (edits ++ [e])
      { s with
        server := absorb env s.server e
        inFlight := s.inFlight ++ (e.published? env).toList } where
  introduced := (absorb_introduced env s.server e).trans h.introduced
  documents := by
    intro uri
    rw [get?_absorb, latest_concat, h.documents]
    cases e.taken? with
    | none => rfl
    | some state =>
        by_cases huri : uri = e.uri
        · simp [huri]
        · simp [huri]
  publications := by
    have hstarted : started env (edits ++ [e]) = started env edits ++ (e.published? env).toList := by
      cases hpublished : e.published? env <;> simp [started, hpublished]
    rw [hstarted, ← List.append_assoc]
    exact h.publications.append_right _

/-- Delivering a publication. -/
theorem Tracks.deliver {env : Environment} {edits : List Edit} {s : Session}
    (h : Tracks env edits s) {before after : List Publication} {p : Publication}
    (hflight : s.inFlight = before ++ p :: after) : Tracks env edits
      { s with inFlight := before ++ after, delivered := s.delivered ++ [p] } where
  introduced := h.introduced
  documents := h.documents
  publications := by
    have hmoved : (s.delivered ++ [p] ++ (before ++ after)).Perm (s.delivered ++ s.inFlight) := by
      rw [hflight, List.append_assoc, List.singleton_append]
      exact List.Perm.append_left _ List.perm_middle.symm
    exact hmoved.trans h.publications

/-- A server that has seen no edit has no documents and nothing in flight. -/
theorem tracks_fresh (env : Environment) (version : Text) : Tracks env [] (fresh version) where
  introduced := rfl
  documents := fun _ => rfl
  publications := .nil

variable {env : Environment} {version : Text} {edits : List Edit}

/-- The tracking holds along every run: by induction, one case for a step that edits and one for a
step that delivers. -/
theorem Runs.tracks {s : Session} (hrun : Runs env (fresh version) edits s) : Tracks env edits s := by
  induction hrun with
  | start => exact tracks_fresh env version
  | @handle edits s e response published? server hrun hhandle ih =>
      rw [handle_edit env ih.introduced e] at hhandle
      obtain ⟨⟨-, rfl⟩, rfl⟩ : (_ ∧ e.published? env = published?) ∧ absorb env s.server e = server := by
        simpa using hhandle
      exact ih.handle e
  | deliver hrun hflight ih => exact ih.deliver hflight

/-! ## Every order occurs -/

/-- All edits can be handled before anything is delivered. -/
theorem exists_run_undelivered (env : Environment) (version : Text) (edits : List Edit) :
    ∃ s, Runs env (fresh version) edits s ∧ s.delivered = [] ∧ s.inFlight = started env edits := by
  induction edits using List.reverseRecOn with
  | nil => exact ⟨fresh version, .start, rfl, rfl⟩
  | append_singleton edits e ih =>
      obtain ⟨s, hrun, hdelivered, hflight⟩ := ih
      refine ⟨_, hrun.handle (handle_edit env hrun.tracks.introduced e), hdelivered, ?_⟩
      cases hpublished : e.published? env <;> simp [started, hflight, hpublished]

/-- What is in flight can be delivered in any order. -/
theorem Runs.deliver_all {s : Session} (hrun : Runs env (fresh version) edits s)
    {order : List Publication} (horder : s.inFlight.Perm order) : ∃ s',
      Runs env (fresh version) edits s' ∧ s'.inFlight = []
        ∧ s'.delivered = s.delivered ++ order := by
  induction order generalizing s with
  | nil => exact ⟨s, hrun, horder.eq_nil, (List.append_nil _).symm⟩
  | cons p order ih =>
      have hmem : p ∈ s.inFlight := horder.mem_iff.2 List.mem_cons_self
      obtain ⟨before, after, hflight⟩ := List.append_of_mem hmem
      have hrest : (before ++ after).Perm order := by
        rw [hflight] at horder
        exact (List.perm_middle.symm.trans horder).cons_inv
      obtain ⟨s', hrun', hempty, hdelivered⟩ := ih (hrun.deliver hflight) hrest
      exact ⟨s', hrun', hempty, hdelivered.trans (by simp)⟩

/-- Every order of the publications is the order of some run: first all edits, then the deliveries one
by one. -/
theorem exists_run_of_perm (version : Text) {order : List Publication} (horder : (started env edits).Perm order) :
    ∃ s, Runs env (fresh version) edits s ∧ s.inFlight = [] ∧ s.delivered = order := by
  obtain ⟨s, hrun, hdelivered, hflight⟩ := exists_run_undelivered env version edits
  obtain ⟨s', hrun', hempty, hdelivered'⟩ := hrun.deliver_all (hflight ▸ horder)
  exact ⟨s', hrun', hempty, by rw [hdelivered', hdelivered, List.nil_append]⟩

/-- Any publication of a document can be the last that the editor gets of it. -/
theorem exists_run_shown (version : Text) {uri : Text} {p : Publication}
    (hp : p ∈ about uri (started env edits)) : ∃ s,
      Runs env (fresh version) edits s ∧ s.inFlight = [] ∧ shown? uri s.delivered = some p := by
  obtain ⟨hmem, huri⟩ := mem_about.1 hp
  obtain ⟨before, after, hstarted⟩ := List.append_of_mem hmem
  have horder : (started env edits).Perm (before ++ after ++ [p]) := by
    rw [hstarted]
    exact List.perm_middle.trans (List.perm_append_singleton p _).symm
  obtain ⟨s, hrun, hempty, hdelivered⟩ := exists_run_of_perm version horder
  refine ⟨s, hrun, hempty, ?_⟩
  rw [hdelivered, shown?, about, List.filter_append]
  simp [huri]

/-- The editor shows one of the publications started for the document, or none if there is none. -/
theorem Runs.shown_mem {s : Session} (hrun : Runs env (fresh version) edits s)
    (hempty : s.inFlight = []) (uri : Text) : match shown? uri s.delivered with
      | some p => p ∈ about uri (started env edits)
      | none => about uri (started env edits) = [] := by
  have hperm : s.delivered.Perm (started env edits) := by
    simpa [hempty] using hrun.tracks.publications
  have habout : (about uri s.delivered).Perm (about uri (started env edits)) := hperm.filter _
  cases hshown : shown? uri s.delivered with
  | some p => exact habout.mem_iff.1 (List.mem_of_getLast? hshown)
  | none =>
      have hnil : about uri s.delivered = [] := List.getLast?_eq_none_iff.1 hshown
      exact (hnil ▸ habout).symm.eq_nil

/-- Whatever an editor should end up with, it does so in every order exactly when all publications
started for the document are this one, and there is one if there should be. -/
theorem shown_eq_iff (version : Text) (uri : Text) (wanted : Option Publication) :
    (∀ s, Runs env (fresh version) edits s → s.inFlight = [] → shown? uri s.delivered = wanted)
      ↔ (about uri (started env edits) = [] → wanted = none)
        ∧ ∀ p ∈ about uri (started env edits), wanted = some p := by
  refine ⟨fun hall => ⟨fun hnothing => ?_, fun p hp => ?_⟩, ?_⟩
  · obtain ⟨s, hrun, hempty, hdelivered⟩ := exists_run_of_perm version (.refl (started env edits))
    rw [← hall s hrun hempty, hdelivered, shown?, hnothing]
    rfl
  · obtain ⟨s, hrun, hempty, hshown⟩ := exists_run_shown version hp
    rw [← hall s hrun hempty, hshown]
  · rintro ⟨hnothing, hsame⟩ s hrun hempty
    have hmem := hrun.shown_mem hempty uri
    split at hmem
    · next p hshown => rw [hshown, hsame p hmem]
    · next hshown => rw [hshown, hnothing hmem]

end Session

open Session in
/-- What an editor ends up with. Whatever the edits and however deliveries come between them, once
nothing is in flight every publication that was started has been delivered exactly once, and the
server holds the latest text of every document with its analysis. If a document's publications were
delivered in the order in which they were started, the last one is the current one. But the server
does not see to that order: the last one is current in every order exactly when all the publications
started for the document say the same. Nor does it follow every change: for what the document really
is, the last one is due in every order exactly when all that were started are due, and if nothing was
started nothing is due. -/
theorem delivery_current_iff (env : Environment) (version : Text) (edits : List Edit) (uri : Text) :
    (∀ s, Runs env (fresh version) edits s → s.inFlight = [] →
      s.delivered.Perm (started env edits)
      ∧ s.server.documents.get? uri = held env uri (latest? uri edits).join)
    ∧ (∀ s, Runs env (fresh version) edits s → s.inFlight = [] →
      about uri s.delivered = about uri (started env edits) →
      shown? uri s.delivered = current? env uri edits)
    ∧ ((∀ s, Runs env (fresh version) edits s → s.inFlight = [] →
        shown? uri s.delivered = current? env uri edits)
      ↔ ∀ p ∈ about uri (started env edits), current? env uri edits = some p)
    ∧ ∀ columns, (∀ s, Runs env (fresh version) edits s → s.inFlight = [] →
        shown? uri s.delivered = due? columns env uri edits)
      ↔ (about uri (started env edits) = [] → due? columns env uri edits = none)
        ∧ ∀ p ∈ about uri (started env edits), due? columns env uri edits = some p := by
  refine ⟨?_, ?_, ?_, fun columns => shown_eq_iff version uri _⟩
  · intro s hrun hempty
    have hpublications := hrun.tracks.publications
    rw [hempty, List.append_nil] at hpublications
    exact ⟨hpublications, hrun.tracks.documents uri⟩
  · intro s hrun hempty horder
    rw [shown?, horder, ← shown?, shown_started]
  · rw [shown_eq_iff version uri]
    -- the server has started something for every document that it takes to have a state
    refine ⟨And.right, fun hsame => ⟨fun hnothing => ?_, hsame⟩⟩
    rw [← shown_started, shown?, hnothing]
    rfl

/-- A statement is left open and completed in the next edit. -/
def completing : List Edit :=
  [.opened "game.bar" "int x", .changed "game.bar" [.object [("text", .text "int x;")]]]

/-- A file system without files. -/
def noFiles : Environment := { tree := { cwd := "/" } }

/-- The editor can be left with the diagnostics of the text that is no longer there. -/
example : ∃ s, Session.Runs noFiles (Session.fresh "1") completing s ∧ s.inFlight = []
    ∧ shown? "game.bar" s.delivered ≠ current? noFiles "game.bar" completing := by
  have hearlier : publicationOf noFiles "game.bar" (some "int x")
      ∈ about "game.bar" (started noFiles completing) := by decide +kernel
  obtain ⟨s, hrun, hempty, hshown⟩ := Session.exists_run_shown "1" hearlier
  refine ⟨s, hrun, hempty, ?_⟩
  rw [hshown]
  decide +kernel

/-- A statement is completed, and then an empty stretch in front of it is replaced by nothing. -/
def completedInTwoEvents : List Edit :=
  [.opened "game.bar" "int x", .changed "game.bar" [.object [("text", .text "int x;")],
    .object [("range", .object [("start", .object [("line", .nat 0), ("character", .nat 0)]),
      ("end", .object [("line", .nat 0), ("character", .nat 0)])]), ("text", .text [])]]]

/-- The document is complete, the server did not take that in and its only publication is the one of
the text that is no longer there. -/
example :
    actual? (fun _ column => column) "game.bar" completedInTwoEvents = some (some ("int x;" : Text))
    ∧ latest? "game.bar" completedInTwoEvents = some (some ("int x" : Text))
    ∧ (about "game.bar" (started noFiles completedInTwoEvents)).map (·.notices.length) = [1]
    ∧ (due? (fun _ column => column) noFiles "game.bar" completedInTwoEvents).map (·.notices)
      = some [] := by
  decide +kernel

end TickScript.Editor
