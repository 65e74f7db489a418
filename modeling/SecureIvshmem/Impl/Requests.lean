import Mathlib.Logic.Function.Basic
import SecureIvshmem.Framework.Run
import SecureIvshmem.Impl.Secure
import SecureIvshmem.Impl.Trusted

/-!
# `ivshmem_trusted_control`, statement by statement

The trusted side serving requests, with `ivshmem_create_channel` and
`ivshmem_init_channel` inlined: the words of the candidate are copied one at
a time, and the fields of the new slot that do not come from the candidate
are written in one step, since nobody looks at a slot before
`num_active_channels` counts it. `Requests` is the trusted process with any
number of processes that call `ivshmem_request_channel`.
-/

namespace Ivshmem

/-- Where a call of `ivshmem_trusted_control` is. -/
inductive ControlPc where
  | idle
  | lock
  | check
  | copySenderVm
  | copySenderPid
  | copyReceiverVm
  | init
  | lastId
  | freeStart
  | count
  | clearFlag
  | unlock
  | fault (e : Fault)
  deriving DecidableEq

/-- The trusted process that serves requests. -/
structure Controller where
  pc : ControlPc
  /-- `new_channel`. -/
  chan : Fin maxChannels
  ret : Int32
  /-- What its calls have returned. -/
  returned : List Int32

/-- The trusted process before its first call. -/
def Controller.start : Controller := ⟨.idle, 0, 0, []⟩

/-- One step of `ivshmem_trusted_control`. -/
def controlStep (c : ControlSection) (t : Controller) : ControlSection × Controller :=
  match t.pc with
  | .idle =>
    if c.hasChannelCandidate then (c, { t with pc := .lock })
    else (c, { t with returned := t.returned ++ [0] })
  | .lock => ({ c with controlMutex := 1 }, { t with pc := .check })
  | .check =>
    if .ofNat maxChannels ≤ c.numActiveChannels then (c, { t with pc := .clearFlag, ret := -1 })
    else if .ofNat dataSectionSize < c.freeStartOffset + .ofNat channelInitSize then
      (c, { t with pc := .clearFlag, ret := -1 })
    else
      match slot c.numActiveChannels with
      | .ok i => (c, { t with pc := .copySenderVm, chan := i })
      | .error e => (c, { t with pc := .fault e })
  | .copySenderVm =>
    (c.modify t.chan fun ch => { ch with key := { ch.key with senderVm := c.channelCandidate.senderVm } },
      { t with pc := .copySenderPid })
  | .copySenderPid =>
    (c.modify t.chan fun ch =>
      { ch with key := { ch.key with senderPid := c.channelCandidate.senderPid } },
      { t with pc := .copyReceiverVm })
  | .copyReceiverVm =>
    (c.modify t.chan fun ch =>
      { ch with key := { ch.key with receiverVm := c.channelCandidate.receiverVm } },
      { t with pc := .init })
  | .init => (c.modify t.chan fun ch => initChannel c ch.key, { t with pc := .lastId })
  | .lastId => ({ c with lastChannelId := c.lastChannelId + 1 }, { t with pc := .freeStart })
  | .freeStart =>
    ({ c with freeStartOffset := c.freeStartOffset + .ofNat channelInitSize }, { t with pc := .count })
  | .count =>
    ({ c with numActiveChannels := c.numActiveChannels + 1 }, { t with pc := .clearFlag, ret := 0 })
  | .clearFlag => ({ c with hasChannelCandidate := false }, { t with pc := .unlock })
  | .unlock => ({ c with controlMutex := 0 }, { t with pc := .idle, returned := t.returned ++ [t.ret] })
  | .fault _ => (c, t)

/-- The trusted process and any number of requesting ones, named by `ι`. -/
structure Requests (ι : Type*) where
  ctr : ControlSection
  client : ι → RequestPc
  trusted : Controller

/-- Who takes a step. -/
inductive RequestTurn (ι : Type*) where
  | client (i : ι)
  | trusted

variable {ι : Type*}

/-- Whose step it is, where `none` is the trusted process. -/
def RequestTurn.party : RequestTurn ι → Option ι
  | .client i => some i
  | .trusted => none

variable [DecidableEq ι]

/-- Before the first calls, or, if the flag is up, with the process that
raised it still waiting. -/
def Requests.start (c : ControlSection) (keys : ι → ChannelKey) : Requests ι where
  ctr := c
  client := fun i => if c.hasChannelCandidate ∧ c.channelCandidate = keys i then .poll else .find
  trusted := .start

/-- One step; a process whose call has returned calls again. -/
def requestsStep (keys : ι → ChannelKey) (s : Requests ι) : RequestTurn ι → Requests ι
  | .client i =>
    match s.client i with
    | .returned _ => { s with client := Function.update s.client i .find }
    | pc =>
      { s with
        ctr := (requestStep (keys i) s.ctr pc).1
        client := Function.update s.client i (requestStep (keys i) s.ctr pc).2 }
  | .trusted =>
    { s with ctr := (controlStep s.ctr s.trusted).1, trusted := (controlStep s.ctr s.trusted).2 }

end Ivshmem
