import Mathlib.Data.Option.Basic
import Zeron.Lib.Machine

/-!
# Sign-in sessions

`Auth` of `crates/engine/src/auth.rs` with a WorkOS client. A sign-out and the end of a sign-in hold
the sign-in lock throughout. A refresh holds its gate, waits for the edge, and then updates the access
token, the stored session, the file and the published state one after the other.
-/

namespace Zeron.SignIn

open Zeron.Lib (Machine)

structure AuthUser where
  id : String
  email : String
  name : Option String
deriving DecidableEq

/-- A token that the edge issued for a user, with the organization in its claims. -/
structure Token where
  owner : String
  orgId : Option String
  number : Nat
deriving DecidableEq

structure StoredSession where
  refreshToken : Token
  user : AuthUser
  orgId : Option String
deriving DecidableEq

inductive AuthState where
  | signedOut
  | needsOrganization (user : AuthUser)
  | signedIn (user : AuthUser) (orgId : String)
deriving DecidableEq

def stateFor (user : AuthUser) : Option String → AuthState
  | some orgId => .signedIn user orgId
  | none => .needsOrganization user

/-- `fresh` says that the token has more than the slack left. -/
structure AccessEntry where
  token : Token
  fresh : Bool
deriving DecidableEq

/-- Where a refresh stands after its request. -/
inductive Stage where
  | waiting
  | cache (access refreshed : Token)
  | store (access refreshed : Token)
  | save (access : Token) (publish : Option AuthState)
  | announce (access : Token) (publish : Option AuthState)
deriving DecidableEq

structure Flight where
  refreshToken : Token
  organizationId : Option String
  /-- The sign-in that the stored session came from. -/
  login : Nat
  stage : Stage
deriving DecidableEq

/-- `login`, `leaked` and `evicted` are kept for the statements: the number of the sign-in, whether an
access token was handed out without a session, and whether a rejected refresh has signed out a session
of a later sign-in. -/
structure Auth where
  state : AuthState
  stored : Option StoredSession
  access : Option AccessEntry
  file : Option StoredSession
  generation : Nat
  pending : List Nat
  nextState : Nat
  /-- The generations of the code exchanges under way. -/
  exchanges : List Nat
  flight : Option Flight
  login : Nat
  leaked : Bool
  evicted : Bool
deriving DecidableEq

inductive Response where
  | unreachable
  /-- No success. -/
  | status (code : Nat)
  | malformed
  | tokens (access refreshed : Token)
deriving DecidableEq

inductive Action where
  | beginSignIn
  | expirePending (oauthState : Nat)
  | takePending (oauthState : Nat)
  | exchangeFails (i : Nat)
  | finishSignIn (i : Nat) (user : AuthUser) (access refreshed : Token)
  | signOut
  /-- The cached token comes within the slack of its end. -/
  | expire
  | accessToken
  | refresh (organizationId : Option String)
  | respond (response : Response)
  | advance
deriving DecidableEq

namespace Auth

def start (stored : Option StoredSession) : Auth :=
  { state := (stored.map fun session => stateFor session.user session.orgId).getD .signedOut
    stored, access := none, file := stored, generation := 0, pending := [], nextState := 0
    exchanges := [], flight := none, login := 0, leaked := false, evicted := false }

variable (auth : Auth)

def signOut : Auth :=
  { auth with
    generation := auth.generation + 1, pending := [], stored := none, access := none, file := none
    state := .signedOut }

def finishSignIn (user : AuthUser) (access refreshed : Token) : Auth :=
  let session := { refreshToken := refreshed, user, orgId := access.orgId }
  { auth with
    access := some { token := access, fresh := true }, file := some session, stored := some session
    state := stateFor user access.orgId, login := auth.login + 1 }

def handOut : Auth := { auth with leaked := auth.leaked || auth.stored.isNone }

def refresh (organizationId : Option String) : Auth :=
  if organizationId.isNone && auth.access.any (·.fresh) then auth.handOut
  else
    match auth.stored with
    | none => auth
    | some session =>
        { auth with
          flight := some { refreshToken := session.refreshToken, organizationId
                           login := auth.login, stage := .waiting } }

def respond (flight : Flight) : Response → Option Auth
  | .unreachable | .malformed => some { auth with flight := none }
  | .status code =>
      if 400 ≤ code ∧ code < 500 ∧ flight.organizationId = none then
        some { auth with
          flight := none
          evicted := auth.evicted || (auth.stored.isSome && auth.login != flight.login) }.signOut
      else some { auth with flight := none }
  | .tokens access refreshed =>
      -- The edge issues tokens only for the user whose token it was given.
      if access.owner = flight.refreshToken.owner ∧ refreshed.owner = flight.refreshToken.owner then
        some { auth with flight := some { flight with stage := .cache access refreshed } }
      else none

def advance (flight : Flight) : Option Auth :=
  match flight.stage with
  | .waiting => none
  | .cache access refreshed =>
      some { auth with
        access := some { token := access, fresh := true }
        flight := some { flight with stage := .store access refreshed } }
  | .store access refreshed =>
      match auth.stored with
      | none => some { auth with flight := none }
      | some session =>
          some { auth with
            stored := some { session with refreshToken := refreshed, orgId := access.orgId }
            flight := some { flight with
              stage := .save access (if session.orgId = access.orgId then none
                else some (stateFor session.user access.orgId)) } }
  | .save access publish =>
      some { auth with
        file := auth.stored, flight := some { flight with stage := .announce access publish } }
  | .announce _ publish =>
      some { auth with state := publish.getD auth.state, flight := none }.handOut

def step (auth : Auth) : Action → Option Auth
  | .beginSignIn =>
      some { auth with
        pending := auth.nextState :: auth.pending, nextState := auth.nextState + 1 }
  | .expirePending oauthState => some { auth with pending := auth.pending.erase oauthState }
  | .takePending oauthState =>
      if oauthState ∈ auth.pending then
        some { auth with
          pending := auth.pending.erase oauthState
          exchanges := auth.exchanges ++ [auth.generation] }
      else none
  | .exchangeFails i => some { auth with exchanges := auth.exchanges.eraseIdx i }
  | .finishSignIn i user access refreshed =>
      match auth.exchanges[i]? with
      | none => none
      | some generation =>
          let auth := { auth with exchanges := auth.exchanges.eraseIdx i }
          if access.owner = user.id ∧ refreshed.owner = user.id then
            some (if auth.generation = generation then auth.finishSignIn user access refreshed
              else auth)
          else none
  | .signOut => some auth.signOut
  | .expire =>
      some { auth with access := auth.access.map fun entry => { entry with fresh := false } }
  | .accessToken => if auth.access.any (·.fresh) then some auth.handOut else none
  | .refresh organizationId =>
      if auth.flight.isNone then some (auth.refresh organizationId) else none
  | .respond response =>
      match auth.flight with
      | some flight => if flight.stage = .waiting then auth.respond flight response else none
      | none => none
  | .advance => auth.flight.bind auth.advance

/-- The stored session is of the user that its refresh token was issued for. -/
def Consistent (stored : Option StoredSession) : Prop :=
  ∀ session ∈ stored, session.refreshToken.owner = session.user.id

def machine : Machine Auth Action :=
  { init := fun auth => ∃ stored, Consistent stored ∧ auth = start stored, step }

def refreshing : Bool := auth.flight.any (·.stage != .waiting)

structure Unmixed : Prop where
  issued : ∀ session, auth.stored = some session → session.refreshToken.owner = session.user.id ∧
    ∀ entry, auth.access = some entry → entry.token.owner = session.user.id
  signedOut : auth.stored = none → auth.access = none ∧ auth.file = none
  unleaked : auth.leaked = false
  unevicted : auth.evicted = false
  saved : auth.flight = none → auth.file = auth.stored

/-! ## Where a refresh is in time -/

/-- Tokens come for the user who is still signed in, a rejection for the session that is still the
stored one; and nobody signs out, or another user in, while the refresh could still undo that. -/
def inTime : Action → Bool
  | .respond (.tokens _ _) =>
      auth.flight.all fun flight =>
        auth.stored.any fun session => session.user.id == flight.refreshToken.owner
  | .respond (.status code) =>
      auth.flight.all fun flight => code < 400 || 500 ≤ code || flight.organizationId.isSome
        || auth.stored.isNone || auth.login == flight.login
  | .signOut =>
      match auth.flight.map Flight.stage with
      | some (.cache _ _) | some (.save _ _) | some (.announce _ _) => false
      | _ => true
  | .finishSignIn _ user _ _ =>
      match auth.flight.map Flight.stage with
      | some (.cache access _) | some (.store access _) => access.owner == user.id
      | _ => true
  | _ => true

def InTime (auth : Auth) (a : Action) : Prop := auth.inTime a = true

instance (auth : Auth) (a : Action) : Decidable (InTime auth a) :=
  inferInstanceAs (Decidable (auth.inTime a = true))

/-- What a refresh has done so far, and that it still may do the rest. -/
def AtStage : Option Stage → Prop
  | none | some .waiting => auth.file = auth.stored
  | some (.cache access refreshed) => auth.file = auth.stored ∧ refreshed.owner = access.owner ∧
      ∃ session, auth.stored = some session ∧ session.user.id = access.owner
  | some (.store access refreshed) => auth.file = auth.stored ∧ refreshed.owner = access.owner ∧
      ∀ session, auth.stored = some session → session.user.id = access.owner
  | some (.save _ _) => auth.stored.isSome = true
  | some (.announce _ _) => auth.file = auth.stored ∧ auth.stored.isSome = true

structure Inv : Prop where
  issued : ∀ session, auth.stored = some session → session.refreshToken.owner = session.user.id ∧
    ∀ entry, auth.access = some entry → entry.token.owner = session.user.id
  signedOut : auth.stored = none → auth.access = none
  unleaked : auth.leaked = false
  unevicted : auth.evicted = false
  stage : auth.AtStage (auth.flight.map Flight.stage)

variable {auth}

theorem Inv.start {stored : Option StoredSession} (h : Consistent stored) : Inv (start stored) where
  issued session hsession := ⟨h session hsession, nofun⟩
  signedOut _ := rfl
  unleaked := rfl
  unevicted := rfl
  stage := rfl

theorem Inv.unmixed (h : auth.Inv) (hrefreshing : auth.refreshing = false) : auth.Unmixed := by
  have hfile : auth.file = auth.stored := by
    have hstage := h.stage
    cases hflight : auth.flight with
    | none =>
        rw [hflight] at hstage
        exact hstage
    | some flight =>
        have hwaiting : flight.stage = .waiting := by
          simpa [refreshing, hflight] using hrefreshing
        rw [hflight, Option.map_some, hwaiting] at hstage
        exact hstage
  refine ⟨h.issued, fun hnone => ⟨h.signedOut hnone, ?_⟩, h.unleaked, h.unevicted, fun _ => hfile⟩
  rw [hfile, hnone]

/-! ## Steps -/

theorem Inv.frame (h : auth.Inv) {state : AuthState} {generation nextState login : Nat}
    {pending exchanges : List Nat} :
    Inv { auth with state, generation, pending, nextState, exchanges, login } :=
  ⟨h.issued, h.signedOut, h.unleaked, h.unevicted, h.stage⟩

theorem Inv.handOut (h : auth.Inv) (hstored : auth.stored.isSome = true) : Inv auth.handOut := by
  refine ⟨h.issued, h.signedOut, ?_, h.unevicted, h.stage⟩
  simp only [Auth.handOut, h.unleaked, Option.isNone_eq_false_iff.mpr hstored, Bool.or_self]

theorem Inv.stored_of_fresh (h : auth.Inv) (hfresh : auth.access.any (·.fresh) = true) :
    auth.stored.isSome = true := by
  cases hstored : auth.stored with
  | none =>
      rw [h.signedOut hstored] at hfresh
      cases hfresh
  | some session => rfl

theorem Inv.expire (h : auth.Inv) :
    Inv { auth with access := auth.access.map fun entry => { entry with fresh := false } } := by
  refine ⟨fun session hsession => ⟨(h.issued session hsession).1, fun entry hentry => ?_⟩,
    fun hnone => ?_, h.unleaked, h.unevicted, h.stage⟩
  · obtain ⟨entry', hentry', rfl⟩ := Option.map_eq_some_iff.mp hentry
    exact (h.issued session hsession).2 entry' hentry'
  · dsimp only
    rw [h.signedOut hnone, Option.map_none]

theorem Inv.signOut (h : auth.Inv) (hstage : ∀ flight, auth.flight = some flight →
    flight.stage = .waiting ∨ ∃ access refreshed, flight.stage = .store access refreshed) :
    Inv auth.signOut := by
  refine ⟨nofun, fun _ => rfl, h.unleaked, h.unevicted, ?_⟩
  have hold := h.stage
  change AtStage auth.signOut (auth.flight.map Flight.stage)
  cases hflight : auth.flight with
  | none => exact rfl
  | some flight =>
      rw [Option.map_some]
      obtain hwaiting | ⟨access, refreshed, hstore⟩ := hstage flight hflight
      · rw [hwaiting]
        exact rfl
      · rw [hflight, Option.map_some, hstore] at hold
        rw [hstore]
        exact ⟨rfl, hold.2.1, nofun⟩

theorem Inv.finishSignIn (h : auth.Inv) {user : AuthUser} {access refreshed : Token}
    (haccess : access.owner = user.id) (hrefreshed : refreshed.owner = user.id)
    (hstage : ∀ flight, auth.flight = some flight → ∀ access refreshed,
      flight.stage = .cache access refreshed ∨ flight.stage = .store access refreshed →
        access.owner = user.id) : Inv (auth.finishSignIn user access refreshed) := by
  refine ⟨?_, nofun, h.unleaked, h.unevicted, ?_⟩
  · rintro session ⟨⟩
    refine ⟨hrefreshed, ?_⟩
    rintro entry ⟨⟩
    exact haccess
  · have hold := h.stage
    change AtStage (auth.finishSignIn user access refreshed) (auth.flight.map Flight.stage)
    cases hflight : auth.flight with
    | none => exact rfl
    | some flight =>
        rw [hflight, Option.map_some] at hold
        rw [Option.map_some]
        cases hcase : flight.stage with
        | waiting => exact rfl
        | cache access' refreshed' =>
            rw [hcase] at hold
            exact ⟨rfl, hold.2.1, _, rfl,
              (hstage flight hflight access' refreshed' (.inl hcase)).symm⟩
        | store access' refreshed' =>
            rw [hcase] at hold
            refine ⟨rfl, hold.2.1, ?_⟩
            rintro session ⟨⟩
            exact (hstage flight hflight access' refreshed' (.inr hcase)).symm
        | save access' publish => exact rfl
        | announce access' publish => exact ⟨rfl, rfl⟩

theorem Inv.refresh (h : auth.Inv) (hgate : auth.flight = none) (organizationId : Option String) :
    Inv (auth.refresh organizationId) := by
  have hstage := h.stage
  rw [hgate] at hstage
  unfold Auth.refresh
  split
  · rename_i hcached
    exact h.handOut (h.stored_of_fresh (Bool.and_eq_true_iff.mp hcached).2)
  · split
    · exact h
    · exact ⟨h.issued, h.signedOut, h.unleaked, h.unevicted, hstage⟩

section Flight

variable {flight : Flight} {auth' : Auth}

/-- The edge's answer to a refresh. -/
theorem Inv.respond (h : auth.Inv) {response : Response} (hflight : auth.flight = some flight)
    (hwaiting : flight.stage = .waiting) (htime : InTime auth (.respond response))
    (hstep : auth.respond flight response = some auth') : Inv auth' := by
  have hfile := h.stage
  rw [hflight, Option.map_some, hwaiting] at hfile
  have hended : Inv { auth with flight := none } :=
    ⟨h.issued, h.signedOut, h.unleaked, h.unevicted, hfile⟩
  cases response with
  | unreachable | malformed =>
      cases hstep
      exact hended
  | status code =>
      simp only [Auth.respond] at hstep
      split at hstep <;> cases hstep
      · rename_i hrejected
        obtain ⟨hlow, hhigh, horganization⟩ := hrejected
        have hunevicted : (auth.stored.isSome && auth.login != flight.login) = false := by
          have hlow' : ¬ code < 400 := Nat.not_lt.mpr hlow
          have hhigh' : ¬ 500 ≤ code := Nat.not_le.mpr hhigh
          simp only [InTime, inTime, hflight, Option.all_some, hlow', hhigh', horganization,
            decide_false, Option.isSome_none, Bool.false_or, Bool.or_eq_true, beq_iff_eq] at htime
          obtain hnone | hlogin := htime
          · rw [Option.isNone_iff_eq_none.mp hnone]
            rfl
          · simp [hlogin]
        apply Inv.signOut
        · exact ⟨h.issued, h.signedOut, h.unleaked, by simp [h.unevicted, hunevicted], hfile⟩
        · exact nofun
      · exact hended
  | tokens access refreshed =>
      simp only [Auth.respond] at hstep
      split at hstep <;> cases hstep
      rename_i howner
      refine ⟨h.issued, h.signedOut, h.unleaked, h.unevicted, hfile, ?_, ?_⟩
      · exact howner.2.trans howner.1.symm
      · simp only [InTime, inTime, hflight, Option.all_some] at htime
        cases hstored : auth.stored with
        | none =>
            rw [hstored] at htime
            cases htime
        | some session =>
            rw [hstored, Option.any_some, beq_iff_eq] at htime
            exact ⟨session, rfl, htime.trans howner.1.symm⟩

theorem Inv.advance (h : auth.Inv) (hflight : auth.flight = some flight)
    (hstep : auth.advance flight = some auth') : Inv auth' := by
  have hstage := h.stage
  rw [hflight, Option.map_some] at hstage
  unfold Auth.advance at hstep
  cases hcase : flight.stage with
  | waiting =>
      rw [hcase] at hstep
      cases hstep
  | cache access refreshed =>
      rw [hcase] at hstep hstage
      cases hstep
      obtain ⟨hfile, howner, session, hstored, huser⟩ := hstage
      refine ⟨fun other hother => ⟨(h.issued other hother).1, ?_⟩, fun hnone => ?_, h.unleaked,
        h.unevicted, hfile, howner, fun other hother => ?_⟩
      · rintro entry ⟨⟩
        cases hstored.symm.trans hother
        exact huser.symm
      · cases hstored.symm.trans hnone
      · cases hstored.symm.trans hother
        exact huser
  | store access refreshed =>
      rw [hcase] at hstep hstage
      obtain ⟨hfile, howner, huser⟩ := hstage
      dsimp only at hstep
      split at hstep <;> cases hstep
      · exact ⟨h.issued, h.signedOut, h.unleaked, h.unevicted, hfile⟩
      · rename_i session hstored
        refine ⟨?_, nofun, h.unleaked, h.unevicted, rfl⟩
        rintro other ⟨⟩
        exact ⟨howner.trans (huser session hstored).symm, (h.issued session hstored).2⟩
  | save access publish =>
      rw [hcase] at hstep hstage
      cases hstep
      exact ⟨h.issued, h.signedOut, h.unleaked, h.unevicted, rfl, hstage⟩
  | announce access publish =>
      rw [hcase] at hstep hstage
      cases hstep
      apply Inv.handOut
      · exact ⟨h.issued, h.signedOut, h.unleaked, h.unevicted, hstage.1⟩
      · exact hstage.2

end Flight

theorem Inv.step {auth' : Auth} {a : Action} (h : auth.Inv) (htime : InTime auth a)
    (hstep : auth.step a = some auth') : Inv auth' := by
  cases a with
  | beginSignIn | expirePending _ | exchangeFails _ =>
      cases hstep
      exact h.frame
  | takePending oauthState =>
      simp only [Auth.step] at hstep
      split at hstep <;> cases hstep
      exact h.frame
  | finishSignIn i user access refreshed =>
      simp only [Auth.step] at hstep
      split at hstep
      · cases hstep
      · split at hstep <;> cases hstep
        rename_i howner
        split
        · apply Inv.finishSignIn h.frame howner.1 howner.2
          intro flight hflight access' refreshed' hstage
          have hflight : auth.flight = some flight := hflight
          simp only [InTime, inTime, hflight, Option.map_some] at htime
          obtain hstage | hstage := hstage <;> rw [hstage] at htime <;> exact beq_iff_eq.mp htime
        · exact h.frame
  | signOut =>
      cases hstep
      apply h.signOut
      intro flight hflight
      simp only [InTime, inTime, hflight, Option.map_some] at htime
      cases hcase : flight.stage with
      | waiting => exact .inl rfl
      | store access refreshed => exact .inr ⟨access, refreshed, rfl⟩
      | cache _ _ | save _ _ | announce _ _ =>
          rw [hcase] at htime
          cases htime
  | expire =>
      cases hstep
      exact h.expire
  | accessToken =>
      simp only [Auth.step] at hstep
      split at hstep <;> cases hstep
      rename_i hfresh
      exact h.handOut (h.stored_of_fresh hfresh)
  | refresh organizationId =>
      simp only [Auth.step] at hstep
      split at hstep <;> cases hstep
      rename_i hgate
      exact h.refresh (Option.isNone_iff_eq_none.mp hgate) organizationId
  | respond response =>
      simp only [Auth.step] at hstep
      split at hstep
      · rename_i flight hflight
        split at hstep
        · rename_i hwaiting
          exact h.respond hflight hwaiting htime hstep
        · cases hstep
      · cases hstep
  | advance =>
      obtain ⟨flight, hflight, hadvance⟩ := Option.bind_eq_some_iff.mp hstep
      exact h.advance hflight hadvance

def tokenOf (owner : String) (number : Nat) : Token := { owner, orgId := some "org", number }

def sessionOf (id : String) (number : Nat) : StoredSession :=
  { refreshToken := tokenOf id number, user := { id, email := id, name := none }
    orgId := some "org" }

end Auth

end Zeron.SignIn
