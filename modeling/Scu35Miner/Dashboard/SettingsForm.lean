import Scu35Miner.Transition.Run

namespace scu35.miner_dashboard

structure Token where
  ip : Option String
  generation : Nat
  revision : Nat
deriving DecidableEq, Repr

/-- The counters of `SettingsFormState`; its token holds them all. -/
structure SettingsFormState where
  ip : Option String
  generation : Nat
  revision : Nat
deriving DecidableEq, Repr

def SettingsFormState.init : SettingsFormState := ⟨none, 0, 0⟩

def SettingsFormState.token (s : SettingsFormState) : Token := ⟨s.ip, s.generation, s.revision⟩

def SettingsFormState.select (s : SettingsFormState) (ip : String) : SettingsFormState := ⟨some ip, s.generation + 1, 0⟩

def SettingsFormState.edited (s : SettingsFormState) : SettingsFormState := { s with revision := s.revision + 1 }

def SettingsFormState.begin_read (s : SettingsFormState) : SettingsFormState := { s with generation := s.generation + 1 }

def SettingsFormState.accepts (s : SettingsFormState) (token : Token) : Bool := token = s.token

/-- `token[:2] == form_state.token()[:2]`. -/
def SettingsFormState.same_read (s : SettingsFormState) (token : Token) : Bool :=
  token.ip = s.ip && token.generation = s.generation

structure Fields where
  mac : String
  host : String
  port : String
  worker : String
  password : String
  edit_password : Bool
deriving DecidableEq, Repr

/-- The members of a settings reply that the form shows. -/
structure SettingsReply where
  mac : String
  host : String
  port : String
  worker : String
deriving DecidableEq, Repr

/-- A request whose reply is still to come, with the token it was made with. -/
inductive Request where
  | read (token : Token)
  | save (token : Token)
deriving DecidableEq, Repr

def Request.token : Request → Token
  | .read token => token
  | .save token => token

/-- The questions that `reload_settings` and `save` ask. They are modal: the
user can do nothing else until they are answered. -/
inductive Dialog where
  | reload
  | save
deriving DecidableEq, Repr

/-- What happened to the form, in order. -/
inductive Action where
  | edited
  | selected (ip : String)
  | began (token : Token)
  | saving (token : Token)
  | wrote (token : Token)
deriving DecidableEq, Repr

structure Gui where
  form_state : SettingsFormState
  fields : Fields
  save_enabled : Bool
  dialog : Option Dialog
  requests : List Request
  log : List Action
deriving DecidableEq, Repr

def blank_fields (mac : String) : Fields := ⟨mac, "", "3333", "", "", false⟩

def Gui.init : Gui := ⟨.init, blank_fields "", false, none, [], []⟩

/-- `load_settings`; the selected row is that of the form's miner. -/
def Gui.load_settings (g : Gui) : Gui :=
  match g.form_state.ip with
  | none => g
  | some _ =>
    let form_state := g.form_state.begin_read
    { g with
      form_state, save_enabled := false, requests := g.requests ++ [.read form_state.token]
      log := g.log ++ [.began form_state.token] }

def Gui.selected (g : Gui) (ip mac : String) : Gui :=
  if some ip ≠ g.form_state.ip then
    Gui.load_settings
      { g with form_state := g.form_state.select ip, fields := blank_fields mac, log := g.log ++ [.selected ip] }
  else g

/-- An edit of the user; the traces call `edited`. -/
def Gui.edit (g : Gui) (fields : Fields) : Gui :=
  { g with fields, form_state := g.form_state.edited, log := g.log ++ [.edited] }

def Gui.reload_settings (g : Gui) : Gui :=
  if g.form_state.revision ≠ 0 then { g with dialog := some .reload } else g.load_settings

/-- The save button, up to the question; `valid` is whether the fields are. -/
def Gui.save (g : Gui) (valid : Bool) : Gui :=
  if g.save_enabled && g.form_state.ip.isSome && valid then { g with dialog := some .save } else g

/-- The rest of `save` after its question. -/
def Gui.save_confirmed (g : Gui) : Gui :=
  { g with
    save_enabled := false, requests := g.requests ++ [.save g.form_state.token]
    log := g.log ++ [.saving g.form_state.token] }

def Gui.answer (g : Gui) (yes : Bool) : Gui :=
  match g.dialog with
  | none => g
  | some .reload =>
    let g := { g with dialog := none }
    if yes then g.load_settings else g
  | some .save =>
    let g := { g with dialog := none }
    if yes then g.save_confirmed else g

/-- The button after a reply to a request with the given token. -/
def Gui.enable (g : Gui) (token : Token) : Gui :=
  if g.form_state.same_read token then { g with save_enabled := true } else g

/-- The reply is written into the form. -/
def Gui.write (g : Gui) (token : Token) (reply : SettingsReply) : Gui :=
  { g with
    fields := ⟨reply.mac, reply.host, reply.port, reply.worker, "", false⟩
    form_state := { g.form_state with revision := 0 }, log := g.log ++ [.wrote token] }

/-- `settings_read`, or `read_error` for a missing reply. -/
def Gui.settings_read (g : Gui) (token : Token) (reply : Option SettingsReply) : Gui :=
  match reply with
  | some reply =>
    if !g.form_state.same_read token then g
    else
      let g := g.enable token
      if !g.form_state.accepts token then g else g.write token reply
  | none => g.enable token

/-- `saved`, or `save_error` for a missing reply; a reply says whether it is ok. -/
def Gui.saved (g : Gui) (token : Token) (reply : Option Bool) : Gui :=
  let g := g.enable token
  match reply with
  | some true => if g.form_state.accepts token then g.load_settings else g
  | _ => g

inductive Event where
  | edit (fields : Fields)
  | select (ip mac : String)
  | reload
  | save (valid : Bool)
  | answer (yes : Bool)
  | read_reply (i : Nat) (reply : Option SettingsReply)
  | save_reply (i : Nat) (reply : Option Bool)

/-- One event of the main loop. Replies come in any order, also while a
question is open. -/
def Gui.step (g : Gui) (e : Event) : Gui :=
  match e with
  | .edit fields => if g.dialog.isSome then g else g.edit fields
  | .select ip mac => if g.dialog.isSome then g else g.selected ip mac
  | .reload => if g.dialog.isSome then g else g.reload_settings
  | .save valid => if g.dialog.isSome then g else g.save valid
  | .answer yes => g.answer yes
  | .read_reply i reply =>
    match g.requests[i]? with
    | some (.read token) => Gui.settings_read { g with requests := g.requests.eraseIdx i } token reply
    | _ => g
  | .save_reply i reply =>
    match g.requests[i]? with
    | some (.save token) => Gui.saved { g with requests := g.requests.eraseIdx i } token reply
    | _ => g

end scu35.miner_dashboard
