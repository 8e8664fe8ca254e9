import LinuxIpc.SlotChat.Admission

namespace LinuxIpc.SlotChat.Globals
set_option autoImplicit true

open Function (update)

/-- The variables that the accept loop of `s.c` and all its handlers share. -/
structure Vars where
  clientfd : Int
  i : Nat
  j : Nat
  client_p : Table

/-- Where the accept loop stands; each access to a shared variable is a step, and a value read is
kept for the next one. -/
inductive Main where
  | accept
  | init
  | test
  | look
  | find (k : Nat)
  -- `client_p[i] = clientfd;`
  | place
  | take (k : Nat)
  | fill (k : Nat) (fd : Int)
  | spawn
  -- `if (50 == i)`
  | full
  | tell
  | shut
  | inc
  | store (k : Nat)
  deriving DecidableEq, Repr

/-- Where `pthread_run` stands. -/
inductive Pc where
  -- `int index=*(int*)arg;` with `arg` being `&client_p[k]`
  | enter (k : Nat)
  | top
  -- from the comparison of `buf2` with "quit" on
  | talk
  | zero
  | test
  | look
  | find (m : Nat)
  -- `send(client_p[i],buf2,strlen(buf2),0);`
  | pick
  | send (m : Nat)
  | inc
  | store (m : Nat)
  -- `recv(index,buf1,sizeof(buf1),0)`
  | recv
  | scan (m : Nat)
  | free (m : Nat)
  -- `pthread_exit((void*)i);`
  | exit
  | done
  deriving DecidableEq, Repr

/-- Recorded are the connection a handler was created for, what the present pass of its relay loop
has sent (a slot and the descriptor in it), and which descriptors have been registered throughout
the pass. -/
structure Handler where
  conn : Int
  index : Int
  pc : Pc
  sent : List (Nat × Int)
  kept : List Int

inductive Effect where
  | recv (fd : Int)
  | send (fd : Int)
  | close (fd : Int)
  -- the relay loop is through
  | pass (sent : List (Nat × Int)) (kept : List Int)

/-- The descriptors in the table. -/
def registered (p : Table) : List Int := ((List.range slots).map p).filter (· ≠ 0)

/-- The next step of a handler. The environment decides by `b` what a test of the uninitialised
`buf2`, or of the result of `recv`, comes to. -/
def Handler.step (h : Handler) (g : Vars) (b : Bool) : Option (Vars × Handler × Option Effect) :=
  match h.pc with
  | .enter k => some (g, { h with index := g.client_p k, pc := .top }, none)
  | .top => some (g, { h with pc := .talk }, some (.recv g.clientfd))
  | .talk =>
    if b then some (g, { h with pc := .exit }, some (.close g.clientfd))
    else some (g, { h with pc := .zero }, some (.send g.clientfd))
  | .zero => some ({ g with j := 0 },
      { h with pc := .test, sent := [], kept := registered g.client_p }, none)
  | .test =>
    if g.j < 50 then some (g, { h with pc := .look }, none)
    else some (g, { h with pc := .recv, sent := [], kept := [] }, some (.pass h.sent h.kept))
  | .look => some (g, { h with pc := .find g.j }, none)
  | .find m => some (g, { h with pc := if g.client_p m ≠ 0 then .pick else .inc }, none)
  | .pick => some (g, { h with pc := .send g.i }, none)
  | .send m => some (g, { h with pc := .inc, sent := h.sent ++ [(m, g.client_p m)] },
      some (.send (g.client_p m)))
  | .inc => some (g, { h with pc := .store (g.j + 1) }, none)
  | .store m => some ({ g with j := m }, { h with pc := .test }, none)
  | .recv => some (g, { h with pc := if b then .scan 0 else .top }, some (.recv h.index))
  | .scan m =>
    -- the `i` of this loop is its own
    if m < 50 then
      some (g, { h with pc := if g.client_p m = h.index then .free m else .scan (m + 1) }, none)
    else some (g, { h with pc := .done }, none)
  | .free m => some ({ g with client_p := update g.client_p m 0 }, { h with pc := .done }, none)
  | .exit => some (g, { h with pc := .done }, none)
  | .done => none

/-- A descriptor that leaves the table has not been registered throughout a pass. -/
def Handler.keep (h : Handler) (p : Table) : Handler :=
  { h with kept := h.kept.filter (· ∈ registered p) }

/-- Recorded are the connections with the descriptors that their handlers received from and closed,
and the passes of relay loops. -/
structure St where
  vars : Vars
  main : Main
  handler : Nat → Option Handler
  created : Nat
  opened : List Int
  received : List (Int × Int)
  closed : List (Int × Int)
  passes : List (List (Nat × Int) × List Int)

inductive Act where
  | accept (fd : Int)
  -- the next step of `main`, with `pthread_create` succeeding or not
  | main (ok : Bool)
  | handler (k : Nat) (b : Bool)
  deriving DecidableEq, Repr

/-- After the table has changed. -/
def St.keep (s : St) : St :=
  { s with handler := fun k => (s.handler k).map (·.keep s.vars.client_p) }

@[simp] theorem keep_handler (s : St) (k : Nat) :
    s.keep.handler k = (s.handler k).map (·.keep s.vars.client_p) := rfl

def St.log (s : St) (conn : Int) : Option Effect → St
  | some (.recv fd) => { s with received := s.received ++ [(conn, fd)] }
  | some (.close fd) =>
    { s with closed := s.closed ++ [(conn, fd)], opened := s.opened.erase fd }
  | some (.pass sent kept) => { s with passes := s.passes ++ [(sent, kept)] }
  | some (.send _) | none => s

@[simp] theorem log_vars (s : St) : (s.log conn e).vars = s.vars := by
  rcases e with _ | ⟨_ | _ | _ | _⟩ <;> rfl

@[simp] theorem log_main (s : St) : (s.log conn e).main = s.main := by
  rcases e with _ | ⟨_ | _ | _ | _⟩ <;> rfl

@[simp] theorem log_handler (s : St) : (s.log conn e).handler = s.handler := by
  rcases e with _ | ⟨_ | _ | _ | _⟩ <;> rfl

def St.stepMain (s : St) (ok : Bool) : Option St :=
  match s.main with
  | .accept => none
  | .init => some { s with vars.i := 0, main := .test }
  | .test => some { s with main := if s.vars.i < 50 then .look else .accept }
  | .look => some { s with main := .find s.vars.i }
  | .find k => some { s with main := if s.vars.client_p k = 0 then .place else .full }
  | .place => some { s with main := .take s.vars.i }
  | .take k => some { s with main := .fill k s.vars.clientfd }
  | .fill k fd =>
    some { s with vars.client_p := update s.vars.client_p k fd, main := .spawn }
  | .spawn =>
    if ok then
      some { s with
        handler := update s.handler s.created
          (some ⟨s.vars.clientfd, 0, .enter s.vars.i, [], []⟩)
        created := s.created + 1
        main := .accept }
    else some { s with main := .accept }
  | .full => some { s with main := if 50 = s.vars.i then .tell else .inc }
  | .tell => some { s with main := .shut }
  | .shut => some { s with opened := s.opened.erase s.vars.clientfd, main := .inc }
  | .inc => some { s with main := .store (s.vars.i + 1) }
  | .store k => some { s with vars.i := k, main := .test }

def St.stepHandler (s : St) (k : Nat) (b : Bool) : Option St :=
  (s.handler k).bind fun h => (h.step s.vars b).map fun (g, h', e) =>
    ({ s with vars := g, handler := update s.handler k (some h') }).log h.conn e

/-- `accept` gives a descriptor that is not open. -/
def step (s : St) : Act → Option St
  | .accept fd =>
    if s.main = .accept ∧ 0 < fd ∧ fd ∉ s.opened then
      some { s with vars.clientfd := fd, main := .init, opened := fd :: s.opened }
    else none
  | .main ok => (s.stepMain ok).map St.keep
  | .handler k b => (s.stepHandler k b).map St.keep

def start : St := ⟨⟨0, 0, 0, SlotChat.start⟩, .accept, fun _ => none, 0, [], [], [], []⟩

def sys : Sys St Act := ⟨(· = start), step⟩

end LinuxIpc.SlotChat.Globals
