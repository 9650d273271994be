namespace EthernetMac

inductive ConfigError where
  | noRegisterWindow
  | registerWindowTooSmall
  | mapFailed
  | noInterrupt
  | unsupportedVersion
  | unknownAddressWidth
  | datapathStartFailed
  deriving DecidableEq, Repr

namespace ConfigError

def all : List ConfigError :=
  [noRegisterWindow, registerWindowTooSmall, mapFailed, noInterrupt, unsupportedVersion,
    unknownAddressWidth, datapathStartFailed]

def label : ConfigError → String
  | noRegisterWindow => "NoRegisterWindow"
  | registerWindowTooSmall => "RegisterWindowTooSmall"
  | mapFailed => "MapFailed"
  | noInterrupt => "NoInterrupt"
  | unsupportedVersion => "UnsupportedVersion"
  | unknownAddressWidth => "UnknownAddressWidth"
  | datapathStartFailed => "DatapathStartFailed"

def message : ConfigError → String
  | noRegisterWindow => "no register window"
  | registerWindowTooSmall => "register window too small"
  | mapFailed => "register window mapping failed"
  | noInterrupt => "no interrupt line"
  | unsupportedVersion => "unsupported hardware version"
  | unknownAddressWidth => "unknown DMA address width"
  | datapathStartFailed => "datapath start failed"

end ConfigError

inductive IoError where
  | timeout
  | invalidState
  deriving DecidableEq, Repr

namespace IoError

def all : List IoError := [timeout, invalidState]

def label : IoError → String
  | timeout => "Timeout"
  | invalidState => "InvalidState"

def message : IoError → String
  | timeout => "operation timed out"
  | invalidState => "invalid state for operation"

end IoError

inductive Error where
  | config (cause : ConfigError)
  | io (cause : IoError)
  deriving DecidableEq, Repr

namespace Error

def label : Error → String
  | config cause => "Config(" ++ cause.label ++ ")"
  | io cause => "Io(" ++ cause.label ++ ")"

def message : Error → String
  | config cause => "config: " ++ cause.message
  | io cause => "io: " ++ cause.message

end Error

end EthernetMac
