import PasswordWallet.Options.Menu

/-!
# The table of options

`Options_List.c`, the table that the option parser has made of `options.xml`, and the
indices of its three lists.  The last field of a node is the place of its label in the
strings of the flash.
-/

namespace PasswordWallet

/-- The functions `opt_callback_…` that the options call. -/
inductive OptCallback
  | changePwd | changeUsrName | changeName | regeneratePwd | deletePwd | noSort | sortUse
  | sortAlpha | changeKey | showKey | forceCard | forceEnter | changeKeyboard | inverseScreen
  | selfTest | systemInfo | fullReset | addPwd | enterKey | sendBoth | sendPwd | sendUsr

def optionsListNormal : ℕ := 0
def optionsListRecovery : ℕ := 22
def optionsListSend : ℕ := 25

/-- `list_options`, with `OPTIONS_LIST_MAX_INTRICATION`. -/
def listOptions : OptionTable OptCallback where
  nodes := [
    ⟨none, 1, 6, 328⟩,
    ⟨some .changePwd, 28, 2, 389⟩,
    ⟨some .changeUsrName, 28, 3, 410⟩,
    ⟨some .changeName, 28, 4, 430⟩,
    ⟨some .regeneratePwd, 28, 5, 442⟩,
    ⟨some .deletePwd, 28, 28, 452⟩,
    ⟨none, 7, 10, 345⟩,
    ⟨some .noSort, 28, 8, 462⟩,
    ⟨some .sortUse, 28, 9, 473⟩,
    ⟨some .sortAlpha, 28, 28, 489⟩,
    ⟨none, 11, 21, 353⟩,
    ⟨none, 12, 16, 497⟩,
    ⟨some .changeKey, 28, 13, 513⟩,
    ⟨some .showKey, 28, 14, 533⟩,
    ⟨some .forceCard, 28, 15, 554⟩,
    ⟨some .forceEnter, 28, 28, 574⟩,
    ⟨some .changeKeyboard, 28, 17, 615⟩,
    ⟨some .inverseScreen, 28, 18, 593⟩,
    ⟨some .selfTest, 28, 19, 638⟩,
    ⟨some .systemInfo, 28, 20, 987⟩,
    ⟨some .fullReset, 28, 28, 649⟩,
    ⟨some .addPwd, 28, 28, 368⟩,
    ⟨none, 28, 23, 825⟩,
    ⟨some .fullReset, 28, 24, 846⟩,
    ⟨some .enterKey, 28, 28, 864⟩,
    ⟨some .sendBoth, 28, 26, 699⟩,
    ⟨some .sendPwd, 28, 27, 658⟩,
    ⟨some .sendUsr, 28, 28, 679⟩]
  maxIntrication := 2

end PasswordWallet
